import Htools.Machine
import Htools.Codes
import Htools.Rfc3629
import Htools.Utf8
import Htools.BitFields
import Htools.Bitpack
import Htools.Cells
import Htools.Vector
import Htools.VectorReserve
import Htools.Grid
import Htools.QuadtreeMemory
import Htools.HashTable
import Htools.Lexing
import Htools.LexerRuns
import Htools.ConfigFile
import Htools.LexerWhole
import Htools.LexerBytes
import Htools.LexerPartition
import Htools.PoolOrder
import Htools.ConfigGrammar
import Htools.CString
import Htools.Selection
import Htools.HconfMerge
import Htools.HconfCppflags
import Htools.HconfRemerge
import Htools.HconfConf
import Htools.HconfTry
import Htools.HconfRuns
import Htools.HconfSelect
import Htools.HconfUnion
import Htools.BitpackFloat
import Htools.HashProbes
import Htools.HashGrowth
import Htools.SortLinks
import Htools.Hwt
import Htools.Ownership
import Htools.HwtFree
import Htools.HwtTree
import Htools.HwtContexts
import Htools.ConfigWrite
import Htools.ConfigMade
import Htools.ConfigRoundTrip
import Htools.LexerPositions
import Htools.ConfigNumbers
import Htools.ConfigMap
import Htools.HconfMemory
import Htools.HconfLists
import Htools.HconfOrder
import Htools.HconfValues
import Htools.HconfLinkOrder
import Htools.HconfScan
import Htools.HconfGuards
import Htools.Htest
import Htools.Getopt
import Htools.HwtGrid
import Htools.XorShift
import Htools.Random
import Htools.HashInvariant
import Htools.WordBits
import Htools.Bitmask
import Htools.Strings
import Htools.Dir
import Htools.Udp
import Htools.HwtRespond
import Htools.HwtClick
import Htools.HwtMinima
import Htools.RedBlack
import Htools.OrderedSets
import Htools.RbLinks
import Htools.RbMoves
import Htools.RbRepair
import Htools.RbRuns
import Htools.SplayCalls
import Htools.SplayRuns
import Htools.LinkList
import Htools.Simpleq
import Htools.Slist
import Htools.TailqRuns
import Htools.Xsimpleq
import Htools.Fnv
import Htools.Half
import Htools.Strl
