import Kcs.Parser.SwitchOnce
import Kcs.Vm.Names
import Kcs.Parser.BlockPool
import Kcs.Vm.Field
import Kcs.Vm.Edges
import Kcs.Preprocessor.Expansion
import Kcs.Preprocessor.ConditionCorrect
import Kcs.Preprocessor.Inclusion
import Kcs.Preprocessor.Lookahead
import Kcs.Jit.Arguments
import Kcs.Parser.Scope
import Kcs.Preprocessor.Input
import Kcs.Preprocessor.Phases
import Kcs.Jit.BitFieldCorrect
import Kcs.Ext.Binary
import Kcs.Ext.Vector
import Kcs.Ext.JsonHistory
import Kcs.Ext.JsonEval
import Kcs.Parser.SwitchSearch
import Kcs.Parser.SwitchDispatch
import Kcs.Optimizer.SkipEmpty
import Kcs.Optimizer.Transform
import Kcs.Eval.Logical
import Kcs.Types.Compare
import Kcs.Eval.Division
import Kcs.Types.Size
import Kcs.Vm.Cast
import Kcs.Eval.FieldAssignment
import Kcs.Vm.Arithmetic
import Kcs.Types.ZeroWidth
import Kcs.Vm.FillZero
import Kcs.Vm.Threading
import Kcs.Vm.LongJump
import Kcs.Parser.TagScopes
import Kcs.Parser.Specifiers
import Kcs.Preprocessor.Literal
import Kcs.Preprocessor.Pragma
import Kcs.Libc.Printf
import Kcs.Libc.Qsort
import Kcs.Preprocessor.Stringify
import Kcs.Preprocessor.Paste
import Kcs.Preprocessor.ReplaceSlice
import Kcs.Libc.StringCompare
import Kcs.Libc.Time
