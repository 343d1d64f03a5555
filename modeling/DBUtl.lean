import DBUtl.Lib.Machine
import DBUtl.Lib.Ledger
import DBUtl.Lib.Exchange
import DBUtl.Lib.Noninterference
import DBUtl.Lib.Prefetch
import DBUtl.Lib.Feistel
import DBUtl.Lib.FullCycle
import DBUtl.Lib.Scaling
import DBUtl.Lib.Checked
import DBUtl.Lib.Schrage
import DBUtl.Lib.Lehmer
import DBUtl.Lib.Fields
import DBUtl.Lib.Store
import DBUtl.Lib.ByteMem
import DBUtl.Lib.Region
import DBUtl.RNG
import DBUtl.RNGWord
import DBUtl.RNGFields
import DBUtl.RNGRandomSeed
import DBUtl.RNGCache
import DBUtl.RNGHash
import DBUtl.RNGMin
import DBUtl.RNGReseed
import DBUtl.RNGObjects
import DBUtl.RNG2
import DBUtl.RNG2Proof
import DBUtl.RNG2Period
import DBUtl.RNG2Seeds
import DBUtl.RNG2Table
import DBUtl.RNGSelect
import DBUtl.RNGFlip
import DBUtl.RNGCycle
import DBUtl.RNGCycleDouble
import DBUtl.RNGStreams
import DBUtl.CmdLine
import DBUtl.CmdLineProof
import DBUtl.AlignedMem
import DBUtl.AlignedMemProof
import DBUtl.AlignedMemHeap
import DBUtl.AlignedMemContents
import DBUtl.CommSocket
import DBUtl.CommSocketProof
import DBUtl.CommSocketPair
import DBUtl.CommSocketStream
import DBUtl.CmdLineJoin
import DBUtl.Zipf
import DBUtl.Lib.PowerMean
import DBUtl.ZipfProof
import DBUtl.ZipfShares
import DBUtl.ZipfDraws
import DBUtl.LogProof
import DBUtl.AlignedMemHugePage
import DBUtl.AlignedMemHugePageProof
import DBUtl.AlignedMemHugePageCount
import DBUtl.Lib.BoundedText
import DBUtl.AlignedMemHugePageSize
import DBUtl.CmdLineTokens
import DBUtl.CmdLineUsage
import DBUtl.Lib.Compact
import DBUtl.CmdLineArgs
import DBUtl.Lib.Nearest
import DBUtl.Lib.Binary
import DBUtl.RNGDouble
import DBUtl.RNG2Double
import DBUtl.RNGGauss
import DBUtl.Lib.Abort
import DBUtl.LogMacros
import DBUtl.LogMacrosProof
import DBUtl.LogTransparent
import DBUtl.Lib.Stdio
import DBUtl.LogStream
import DBUtl.Lib.Handles
import DBUtl.SocketObjects
import DBUtl.SocketObjectsProof
import DBUtl.Thread
import DBUtl.ThreadProof
