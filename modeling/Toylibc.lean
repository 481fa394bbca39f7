import Toylibc.Lib.ByteMemory
import Toylibc.Lib.BlockList
import Toylibc.Lib.Transition
import Toylibc.Word
import Toylibc.Kernel
import Toylibc.Strings
import Toylibc.Heap
import Toylibc.HeapLayout
import Toylibc.CleanFailure
import Toylibc.FreeExact
import Toylibc.GrowSound
import Toylibc.RunSafety
import Toylibc.Lib.Buffer
import Toylibc.Lib.Lines
import Toylibc.Lib.Partial
import Toylibc.Numerals
import Toylibc.ParseLine
import Toylibc.PartialWrites
import Toylibc.ShellLines
import Toylibc.ShellProcess
import Toylibc.ShellReference
import Toylibc.ShellLookup
import Toylibc.PrintfExact
import Toylibc.Lib.Simulation
import Toylibc.ShellRefines
import Toylibc.ShellSession
import Toylibc.ShellScripts
import Toylibc.ShellSafety
import Toylibc.Alignment
import Toylibc.FirstFit
import Toylibc.HeapHosted
import Toylibc.HeapLinked
import Toylibc.HeapServed
import Toylibc.Lib.Positional
import Toylibc.MallocSize
import Toylibc.NumeralText
import Toylibc.ReallocKeeps
import Toylibc.ReleaseMechanism
import Toylibc.StringOrder
import Toylibc.TakeExact
import Toylibc.Lib.Words
import Toylibc.Tokens
import Toylibc.StringCopy
import Toylibc.PutsPrintf
import Toylibc.CallocZeroes
import Toylibc.ParseSteps
import Toylibc.ParseTexts
import Toylibc.ParseSafety
import Toylibc.Quoting
import Toylibc.Tokenizer
import Toylibc.CommandLookup
import Toylibc.Lib.Objects
import Toylibc.HeapObjects
import Toylibc.HeapClient
import Toylibc.HeapFootprint
import Toylibc.HeapConfined
import Toylibc.HeapDiscipline
import Toylibc.HeapStack
import Toylibc.StackRefines
import Toylibc.StringEdges
