import LioNet.Lib.Transition
import LioNet.Lib.TakeFirst
import LioNet.Lib.Turns
import LioNet.Lib.Tally
import LioNet.Lib.Descent
import LioNet.Lib.LastOne
import LioNet.Lib.KeyedLog
import LioNet.Lib.FileSystem
import LioNet.Lib.PathLookup
import LioNet.Lib.SystemCalls
import LioNet.Lib.PathPrefix
import LioNet.Lib.Symlinks
import LioNet.Fiber
import LioNet.Scheduler.State
import LioNet.Scheduler.Step
import LioNet.Scheduler.Moves
import LioNet.Scheduler.Hands
import LioNet.Scheduler.Ledger
import LioNet.Scheduler.Accounting
import LioNet.Scheduler.Turns
import LioNet.Scheduler.Counters
import LioNet.Scheduler.Cover
import LioNet.Scheduler.Control
import LioNet.Scheduler.Stopping
import LioNet.Scheduler.Drain
import LioNet.Scheduler.Affinity
import LioNet.Scheduler.Switching
import LioNet.Scheduler.Landing
import LioNet.Scheduler.Recycling
import LioNet.Scheduler.Resuming
import LioNet.Scheduler.Lifecycle
import LioNet.Scheduler.RoundRobin
import LioNet.Scheduler.Refinement
import LioNet.Scheduler.Lifetime
import LioNet.Scheduler.Census
import LioNet.MainFiber
import LioNet.Reset
import LioNet.Config.Var
import LioNet.Config.Notify
import LioNet.Config.FromString
import LioNet.Config.Listeners
import LioNet.Config.ListenerIds
import LioNet.Config.Registry
import LioNet.Yaml
import LioNet.Config.Load
import LioNet.Config.Graph
import LioNet.Config.LetterCase
import LioNet.Config.ConfDir
import LioNet.Config.LexicalCast
import LioNet.Config.RoundTrip
import LioNet.Config.WrongShape
import LioNet.Config.ScalarPath
import LioNet.Mutex
import LioNet.LockUse
import LioNet.Config.Sections
import LioNet.Thread
import LioNet.Log.Formatter
import LioNet.Log.Logger
import LioNet.Log.Ownership
import LioNet.Log.Manager
import LioNet.Log.Reload
import LioNet.Log.Define
import LioNet.Log.Dump
import LioNet.Log.Change
import LioNet.Log.Pattern
import LioNet.Log.Format
import LioNet.Log.Percent
import LioNet.Log.Order
import LioNet.Log.FileAppender
import LioNet.Log.Lines
import LioNet.Log.LineOrder
import LioNet.Env
import LioNet.Env.Help
import LioNet.FSUtil.Rm
import LioNet.FSUtil.Mv
import LioNet.FSUtil.Mkdir
import LioNet.FSUtil.OpenForWrite
import LioNet.FSUtil.ListAllFile
import LioNet.FSUtil.Symlink
import LioNet.Env.Paths
