import SimpleVm.Common.ArrayBounds
import SimpleVm.Common.ArrayList
import SimpleVm.Common.CmdlineEnvironment
import SimpleVm.Common.CmdlineValues
import SimpleVm.Common.DlListInvariant
import SimpleVm.Common.HashAccounting
import SimpleVm.Common.PointerStack
import SimpleVm.Common.StringLaw
import SimpleVm.Common.ArrayRestores
import SimpleVm.Common.ArrayStack
import SimpleVm.Common.ArraySearch
import SimpleVm.Common.PointerCopy
import SimpleVm.Common.StringSplit
import SimpleVm.Common.StringCoherence
import SimpleVm.Common.StringRemove
import SimpleVm.Common.DlListInsertion
import SimpleVm.Common.DlListTraversal
import SimpleVm.Common.Trace
import SimpleVm.Common.CmdlineCapture
import SimpleVm.Common.CmdlineSafety
import SimpleVm.Common.CmdlineAccounting
import SimpleVm.Common.FindFile
import SimpleVm.VmCommon.CodeStream
import SimpleVm.VmCommon.DataRoundTrip
import SimpleVm.VmCommon.DataStore
import SimpleVm.VmCommon.CodeReads
import SimpleVm.VmCommon.BufferLifecycle
import SimpleVm.VmCommon.DataRejects
import SimpleVm.Assembler.Symbols
import SimpleVm.Assembler.DataSlots
import SimpleVm.Assembler.InitialisedData
import SimpleVm.Assembler.IndexDivision
import SimpleVm.Assembler.IndexExpr
import SimpleVm.Assembler.IndexTokens
import SimpleVm.Assembler.IndexValue
import SimpleVm.Assembler.Literals
import SimpleVm.Assembler.Comments
import SimpleVm.Assembler.Spacing
import SimpleVm.Assembler.StringLiterals
import SimpleVm.Assembler.IncludeDepth
import SimpleVm.Assembler.Positions
import SimpleVm.Assembler.RoundTrip
import SimpleVm.Assembler.Main
import SimpleVm.Common.DlListLifetime
import SimpleVm.Common.StringSet
import SimpleVm.Assembler.Finder
import SimpleVm.VmCommon.CodeSegment
