import LibClamav.LsigIdentifiers
import LibClamav.LsigParentheses
import LibClamav.FilterSearch
import LibClamav.DlpNumbers
import LibClamav.MapKeys
import LibClamav.HashsetKeys
import LibClamav.CachePaths
import LibClamav.BmOffsetRuns
import LibClamav.LdbRuns
import LibClamav.Md5Check
import LibClamav.UrlShortCircuit
import LibClamav.PhishVerdict
import LibClamav.Base64Lines
import LibClamav.BytecodeVm
import LibClamav.BytecodeComponents
import LibClamav.BytecodeApi
import LibClamav.BytecodePipe
import LibClamav.BytecodeIndices
import LibClamav.TarReaders
import LibClamav.DbgetsLines
import LibClamav.ScriptFlushes
import LibClamav.ScanNames
import LibClamav.ScanWindows
import LibClamav.Decodesig
import LibClamav.CdiffNames
import LibClamav.ScanLimits
import LibClamav.IgnLines
import LibClamav.CpioSeeks
import LibClamav.MemSearch
import LibClamav.Ole2Walk
import LibClamav.Ole2Budget
