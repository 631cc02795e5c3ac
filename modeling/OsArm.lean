import OsArm.Lib.Transition
import OsArm.Lib.Records
import OsArm.Lib.Bits
import OsArm.Abyss.Basic
import OsArm.Abyss.Directory
import OsArm.Abyss.Ownership
import OsArm.Abyss.Root
import OsArm.Abyss.Runs
import OsArm.Abyss.Open
import OsArm.Lib.Stream
import OsArm.Ram.Basic
import OsArm.Ram.Streams
import OsArm.Ram.Paths
import OsArm.Vfs.Basic
import OsArm.Vfs.Isolation
import OsArm.Vfs.Namespace
import OsArm.Lib.Channel
import OsArm.Lib.Linked
import OsArm.Proc.Basic
import OsArm.Proc.Table
import OsArm.Proc.Queues
import OsArm.Lib.Arm
import OsArm.Proc.Exec
import OsArm.Proc.Start
import OsArm.Proc.Stacks
import OsArm.Proc.Waiting
import OsArm.Proc.Wakeups
import OsArm.Proc.Reaping
import OsArm.Abyss.Survival
import OsArm.Abyss.Tree
import OsArm.Abyss.Placement
import OsArm.Abyss.Growth
import OsArm.Abyss.Failures
import OsArm.Heap
import OsArm.Vfs.Descriptors
import OsArm.Abyss.Appending
import OsArm.Lib.Shadowing
import OsArm.Vfs.Bindings
import OsArm.Abyss.Walks
import OsArm.Exceptions
import OsArm.Proc.Receiving
import OsArm.Abyss.Removal
import OsArm.Shell
import OsArm.Abyss.Confined
import OsArm.Abyss.Sizes
import OsArm.Abyss.Recycled
import OsArm.Abyss.LongNames
import OsArm.Abyss.Compositional
import OsArm.Abyss.Dots
import OsArm.Ram.Listing
import OsArm.Ram.Reading
import OsArm.Shell.Copying
import OsArm.Ram.Storing
import OsArm.Shell.Buffers
import OsArm.Shell.Directories
import OsArm.Shell.Editing
import OsArm.Vfs.Prefixes
import OsArm.Vfs.Mounts
import OsArm.Proc.Fairness
import OsArm.Proc.Idling
import OsArm.Proc.Exits
import OsArm.Proc.Slots
import OsArm.Proc.Files
import OsArm.Proc.Loading
import OsArm.Strings.Moving
import OsArm.Lib.Code
import OsArm.Lib.Fields
import OsArm.Strings.Tokens
import OsArm.Shell.Leaks
import OsArm.Lib.Mmio
import OsArm.Uart.Basic
import OsArm.Uart.Console
import OsArm.UserShell
import OsArm.Shell.Session
import OsArm.Strings.Searching
import OsArm.Strings.Building
import OsArm.Abyss.Ledger
import OsArm.Lib.FileStore
import OsArm.Vfs.Store
import OsArm.Uart.Boot
import OsArm.Lib.ArmPaging
import OsArm.Mmu
