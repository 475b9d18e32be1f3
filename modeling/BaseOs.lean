import BaseOs.Lib.Runs
import BaseOs.Lib.Chains
import BaseOs.FileSystem.Lookup
import BaseOs.FileSystem.ReadData
import BaseOs.System
import BaseOs.Process.Execute
import BaseOs.System.Frame
import BaseOs.Process.Sessions
import BaseOs.Process.Effects
import BaseOs.Process.Table
import BaseOs.Process.Status
import BaseOs.Process.Stacks
import BaseOs.FileSystem.Directory
import BaseOs.Syscall.Descriptors
import BaseOs.Syscall.FileReading
import BaseOs.Syscall.Failures
import BaseOs.Syscall.Enumeration
import BaseOs.Console.Bounds
import BaseOs.Terminal.Isolation
import BaseOs.Keyboard.Readers
import BaseOs.Keyboard.Interrupt
import BaseOs.Process.Preemption
import BaseOs.Process.Claims
import BaseOs.Process.Starting
import BaseOs.Process.Ending
import BaseOs.Process.Interleaving
import BaseOs.Process.IndexSafety
import BaseOs.FileSystem.Requests
import BaseOs.Process.Loading
import BaseOs.Lib.Logs
import BaseOs.Lib.Moves
import BaseOs.Lib.TextRows
import BaseOs.Console.Layout
import BaseOs.Keyboard.Lines
import BaseOs.Keyboard.Modifiers
import BaseOs.Keyboard.Echo
import BaseOs.Keyboard.SavedLine
import BaseOs.Process.Arguments
import BaseOs.Process.Residue
import BaseOs.Paging.AddressSpace
import BaseOs.Lib.Stores
import BaseOs.Rtc.Rates
import BaseOs.Process.Parsing
import BaseOs.Syscall.Getargs
import BaseOs.Keyboard.Fetch
import BaseOs.System.Stable
import BaseOs.Keyboard.Shortcuts
import BaseOs.Lib.Cells
import BaseOs.KernelMemory
import BaseOs.Syscall.Pointers
import BaseOs.Syscall.Reach
import BaseOs.Syscall.TableSafety
import BaseOs.System.Events
import BaseOs.FileSystem.Listing
import BaseOs.Syscall.Vidmap
import BaseOs.Console.Cursors
import BaseOs.Console.Numerals
import BaseOs.Lib.Asm
import BaseOs.Paging.Copying
import BaseOs.Paging.Moving
import BaseOs.Console.Printf
import BaseOs.Lib.Programs
import BaseOs.Lib.Pic
import BaseOs.Interrupts
import BaseOs.Interrupts.Lines
import BaseOs.Lib.Frames
import BaseOs.Interrupts.Gate
import BaseOs.User.Buffers
import BaseOs.User.Calls
import BaseOs.User.Cat
import BaseOs.User.Ls
import BaseOs.User.Others
import BaseOs.User.Privacy
import BaseOs.User.Strings
import BaseOs.User.Grep
import BaseOs.User.GrepLines
import BaseOs.User.Typed
import BaseOs.User.Syserr
import BaseOs.User.Shell
