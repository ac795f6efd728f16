import KernelCustom.UserPages
import KernelCustom.MemoryMap
import KernelCustom.ShellBounds
import KernelCustom.Tokenizer
import KernelCustom.FileContents
import KernelCustom.StaleInodes
import KernelCustom.KernelShell
import KernelCustom.KeyWait
import KernelCustom.SystemCalls
import KernelCustom.InterruptFrames
import KernelCustom.FrameMapping
import KernelCustom.KeyQueue
import KernelCustom.LineDisplay
import KernelCustom.VariableExpansion
import KernelCustom.HeapLeaks
import KernelCustom.HeapPlacement
import KernelCustom.MemoryMapWalk
import KernelCustom.InodeCopy
import KernelCustom.DirectoryReads
import KernelCustom.FileLoading
import KernelCustom.PathLookup
import KernelCustom.LoggedLoop
import KernelCustom.TokenizerBounds
import KernelCustom.ExpansionBounds
import KernelCustom.RecentList
import KernelCustom.CommandHistory
import KernelCustom.LoggedArray
import KernelCustom.ReadLine
import KernelCustom.ReadLineEditing
import KernelCustom.Builtins
import KernelCustom.PathBuffer
import KernelCustom.PageRights
import KernelCustom.Runs
import KernelCustom.ScreenColors
import KernelCustom.MemMove
import KernelCustom.AtaInit
import KernelCustom.DiskRead
import KernelCustom.BlockAddress
import KernelCustom.EventHistory
import KernelCustom.KeyEvents
import KernelCustom.KeyDecoding
import KernelCustom.EditingCodes
import KernelCustom.KeyedWords
import KernelCustom.InitPath
import KernelCustom.RejectedPrograms
import KernelCustom.ShellSession
import KernelCustom.ShellInput
import KernelCustom.DriveSessions
import KernelCustom.KeyDelivery
import KernelCustom.ShellRefinement
import KernelCustom.ShellReturn
