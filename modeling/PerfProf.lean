import PerfProf.Order.Reports
import PerfProf.Order.Progress
import PerfProf.Sql.Text
import PerfProf.MultiTrace.Pairing
import PerfProf.MultiTrace.Lost
import PerfProf.MultiTrace.Nested
import PerfProf.Blktrace.Tracks
import PerfProf.Blktrace.Rows
import PerfProf.Kvmmmu.Refcount
import PerfProf.KvmExit.Slots
import PerfProf.Tep.Dropped
import PerfProf.Tep.Accessors
import PerfProf.Spread.Framing
import PerfProf.Spread.Gaps
import PerfProf.Spread.Connection
import PerfProf.Symbols.Covering
import PerfProf.Symbols.Objects
import PerfProf.Callchain.Build
import PerfProf.TwoEvent.CallTree
import PerfProf.Convert.Agreement
import PerfProf.Breakpoint.Agreement
import PerfProf.Expr.Wildcard
import PerfProf.TaskState.Durations
import PerfProf.Lost.Profilers
import PerfProf.Comm.Latest
import PerfProf.Hrcount.Printed
import PerfProf.Oncpu.Prio
import PerfProf.Hrtimer.Printed
import PerfProf.Expr.Accepted
import PerfProf.Expr.Cast
import PerfProf.Expr.Stack
import PerfProf.Clock.Kvmclock
import PerfProf.Perfeval.Evaluate
