import DjgppLibc.MallocSizes
import DjgppLibc.MallocAlign
import DjgppLibc.StdioSeek
import DjgppLibc.StdioOwner
import DjgppLibc.Atexit
import DjgppLibc.C1argsArray
import DjgppLibc.SystemCalls
import DjgppLibc.FdPropsClear
import DjgppLibc.Hsearch
import DjgppLibc.Putenv
import DjgppLibc.DtouStrip
import DjgppLibc.GlobVector
import DjgppLibc.DjasmObj
import DjgppLibc.DjasmEncoding
import DjgppLibc.DjasmLexer
import DjgppLibc.FsextContexts
import DjgppLibc.DjtarBatch
import DjgppLibc.Tmread
import DjgppLibc.ScreenDrivers
import DjgppLibc.DlopenMemory
import DjgppLibc.DlopenModes
import DjgppLibc.DxeRoundTrip
import DjgppLibc.StrtolSubject
import DjgppLibc.NumberedOutput
import DjgppLibc.Rand48
import DjgppLibc.Hash2v
import DjgppLibc.DoscanBuffers
import DjgppLibc.DoscanCounts
import DjgppLibc.GroupingFormat
import DjgppLibc.HexRounding
import DjgppLibc.ConsoleRuns
import DjgppLibc.Fnsplit
import DjgppLibc.DosExecCommand
import DjgppLibc.DosExecPath
import DjgppLibc.DosExecLayout
import DjgppLibc.FixpathBounds
import DjgppLibc.GlobInside
import DjgppLibc.Emu387Limbs
import DjgppLibc.Emu387Decimals
import DjgppLibc.Emu387Stores
import DjgppLibc.Emu387Sqrt
import DjgppLibc.Xsymlink
import DjgppLibc.Syms
import DjgppLibc.DxeContained
import DjgppLibc.Emu387Remainders
import DjgppLibc.Bsearch
import DjgppLibc.Sigprocmask
import DjgppLibc.PrintedNumbers
