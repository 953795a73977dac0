import NgxTickle.Sched.Wakeup
import NgxTickle.Sched.Tso
import NgxTickle.Sched.Fifo
import NgxTickle.Sched.Batch
import NgxTickle.Sched.Flag
import NgxTickle.Notify.Open
import NgxTickle.Notify.Signal
import NgxTickle.Sched.Drain
import NgxTickle.Worker.Stack
import NgxTickle.Worker.Refine
import NgxTickle.Worker.Pools
import NgxTickle.Worker.Posted
import NgxTickle.Worker.Finalize
import NgxTickle.Worker.Phase
import NgxTickle.Worker.Cancel
import NgxTickle.Worker.Teardown
import NgxTickle.Worker.Borrow
import NgxTickle.Worker.Alloc
import NgxTickle.Worker.Spawn
import NgxTickle.Worker.Handle
import NgxTickle.Worker.Result
import NgxTickle.Boot.Model
import NgxTickle.Boot.Own
import NgxTickle.Boot.Refine
import NgxTickle.Net.Held
import NgxTickle.Net.Wake
import NgxTickle.Sched.Yield
import NgxTickle.Resolve.Sync
import NgxTickle.Lib.Budget
import NgxTickle.Sched.Due
import NgxTickle.Worker.Due
import NgxTickle.Worker.Settle
import NgxTickle.Worker.Answer
import NgxTickle.Worker.Woken
