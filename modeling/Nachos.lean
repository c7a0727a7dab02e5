import Nachos.Threads.JoinExit
import Nachos.FileSys.Refinement
import Nachos.Threads.Scheduler
import Nachos.Threads.ContextSwitch
import Nachos.Network.PostOffice
import Nachos.FileSys.ConsoleSlots
import Nachos.FileSys.CopyPrint
import Nachos.FileSys.DirectoryMap
import Nachos.FileSys.Undo
import Nachos.UserProg.LoadBounds
import Nachos.Threads.Orphans
import Nachos.UserProg.FailedExec
import Nachos.Threads.SemName
import Nachos.FileSys.OpenMode
import Nachos.FileSys.Offsets
import Nachos.UserProg.FileCursor
import Nachos.UserProg.FileNames
import Nachos.UserProg.Kernel
import Nachos.UserProg.SendReceive
import Nachos.Machine.Arithmetic
import Nachos.UserProg.Translators
import Nachos.UserProg.PrintNum
import Nachos.UserProg.StringCopy
import Nachos.Machine.DiskLatency
import Nachos.Coff2Noff.Bss
import Nachos.Lib.BitmapSet
import Nachos.Lib.HashIterator
import Nachos.Lib.SortedLinkedList
