import CtypesCbuf.Lib.NameSupply
import CtypesCbuf.CLanguage.Syntax
import CtypesCbuf.CLanguage.Interpretation
import CtypesCbuf.CLanguage.LetNormal
import CtypesCbuf.CLanguage.LetMeaning
import CtypesCbuf.Cbuf.GenerateC
import CtypesCbuf.Cbuf.Layout
import CtypesCbuf.CLanguage.Steps
import CtypesCbuf.Cbuf.Ordering
import CtypesCbuf.Cstubs.GenerateC
import CtypesCbuf.Stubs.External
import CtypesCbuf.Cstubs.Layout
import CtypesCbuf.Cstubs.Lwt
import CtypesCbuf.Cstubs.Unlocked
import CtypesCbuf.Cstubs.Arity
import CtypesCbuf.Cstubs.Execution
import CtypesCbuf.Cbuf.GenerateML
import CtypesCbuf.Cbuf.Acceptance
import CtypesCbuf.Cbuf.Agreement
import CtypesCbuf.Cbuf.Linking
import CtypesCbuf.Lib.IntFormat
import CtypesCbuf.Lib.ByteMemory
import CtypesCbuf.Runtime.Value
import CtypesCbuf.Runtime.Machine
import CtypesCbuf.Runtime.Accesses
import CtypesCbuf.CLanguage.Semantics
import CtypesCbuf.Stubs.Execution
import CtypesCbuf.Cbuf.Execution
import CtypesCbuf.Cbuf.Integers
import CtypesCbuf.Cbuf.Representation
import CtypesCbuf.CtypesForeign.FfiCall
import CtypesCbuf.ErrnoPaths
import CtypesCbuf.Ctypes.TypeStore
import CtypesCbuf.Ctypes.TypeSteps
import CtypesCbuf.Ctypes.StructLayout
import CtypesCbuf.Lib.Simulation
import CtypesCbuf.Ctypes.WrappingStore
import CtypesCbuf.Ctypes.WrappingSteps
import CtypesCbuf.Ctypes.WrappingLayout
import CtypesCbuf.Ctypes.Exceptions
import CtypesCbuf.Cbuf.Structs
import CtypesCbuf.Cbuf.StructCases
import CtypesCbuf.Cbuf.StructConstruction
import CtypesCbuf.CtypesForeign.Callspec
import CtypesCbuf.CtypesForeign.CallBuffer
import CtypesCbuf.CtypesForeign.CtypesFfi
import CtypesCbuf.CtypesForeign.Callbacks
import CtypesCbuf.CtypesForeign.ClosureProperties
import CtypesCbuf.CtypesForeign.ClosureSafety
import CtypesCbuf.Cbuf.Dispatch
import CtypesCbuf.MlLanguage.Semantics
import CtypesCbuf.MlLanguage.Rules
import CtypesCbuf.Cbuf.Wrappers
import CtypesCbuf.Cbuf.Calls
import CtypesCbuf.Cbuf.CallWrapper
import CtypesCbuf.Cbuf.Counting
import CtypesCbuf.Cbuf.Linearity
import CtypesCbuf.Cbuf.Allocation
import CtypesCbuf.Cbuf.SecondComponent
import CtypesCbuf.Cbuf.Compilation
import CtypesCbuf.Cbuf.StubCompilation
import CtypesCbuf.Cbuf.WholeCalls
import CtypesCbuf.Ctypes.Coerce
import CtypesCbuf.Ctypes.CoerceValues
import CtypesCbuf.Ctypes.Extents
import CtypesCbuf.Ctypes.RoundTrip
import CtypesCbuf.Ctypes.Memory
import CtypesCbuf.Ctypes.TypePrinting
import CtypesCbuf.Lib.CDeclaration
import CtypesCbuf.Ctypes.PrintedTypes
import CtypesCbuf.Cbuf.EmitC
import CtypesCbuf.Cbuf.PrintedStubs
import CtypesCbuf.Ctypes.FieldAccess
import CtypesCbuf.Ctypes.CArray
import CtypesCbuf.Ctypes.ArrayContents
import CtypesCbuf.Ctypes.ArrayOperations
import CtypesCbuf.Ctypes.ArrayLists
import CtypesCbuf.Ctypes.Bigarrays
import CtypesCbuf.Ctypes.BigarrayArrays
import CtypesCbuf.Ctypes.BigarrayElements
import CtypesCbuf.Lib.RowMajor
import CtypesCbuf.Ctypes.EnumViews
import CtypesCbuf.Cstubs.Inverted
import CtypesCbuf.Cstubs.InverseSteps
import CtypesCbuf.Cstubs.InverseCalls
import CtypesCbuf.Cstubs.InverseCompilation
import CtypesCbuf.Ctypes.PrintedFunctions
import CtypesCbuf.Cbuf.PrintedHeaders
import CtypesCbuf.Cstubs.Roots
import CtypesCbuf.Cbuf.LongIdentifiers
import CtypesCbuf.Ctypes.PointerArithmetic
import CtypesCbuf.Lib.CStrings
import CtypesCbuf.Cbuf.StructsProgram
import CtypesCbuf.Cbuf.PrintedText
import CtypesCbuf.Cbuf.PrintedProgram
import CtypesCbuf.Cbuf.PrintedModule
import CtypesCbuf.Ctypes.BlockObjects
import CtypesCbuf.Ctypes.Derivations
import CtypesCbuf.Cbuf.WrapperScoping
import CtypesCbuf.CtypesForeign.Funptrs
import CtypesCbuf.CtypesForeign.FunptrLifecycle
import CtypesCbuf.Cstubs.JobExecution
import CtypesCbuf.Cstubs.Program
import CtypesCbuf.Cstubs.WholeCalls
import CtypesCbuf.Cstubs.Linking
import CtypesCbuf.CtypesForeign.RuntimeLock
import CtypesCbuf.CtypesForeign.RuntimeLockSafety
import CtypesCbuf.CtypesForeign.RuntimeLockCallbacks
import CtypesCbuf.CtypesForeign.ThreadRegistration
