import CacheEmulator.Machine
import CacheEmulator.PageWalk
import CacheEmulator.TlbHrchyHistory
import CacheEmulator.ListPrint
import CacheEmulator.ListClear
import CacheEmulator.Recency
import CacheEmulator.TlbRuns
import CacheEmulator.Exclusive
import CacheEmulator.CacheRuns
import CacheEmulator.LineAddress
import CacheEmulator.Ages
import CacheEmulator.CacheAccepts
import CacheEmulator.Emulator
import CacheEmulator.CacheHistory
import CacheEmulator.ProgramPrint
import CacheEmulator.ProgramAlloc
import CacheEmulator.ProgramLife
import CacheEmulator.ProgramLines
import CacheEmulator.LoaderTranslation
import CacheEmulator.LoaderCleanup
import CacheEmulator.MemoryTrace
import CacheEmulator.CacheDump
import CacheEmulator.TlbHrchyTrace
import CacheEmulator.TlbTrace
import CacheEmulator.TlbHistory
import CacheEmulator.ProgramText
import CacheEmulator.PageLines
import CacheEmulator.Mains
