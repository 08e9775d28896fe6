import Uresourced.Lib.CString
import Uresourced.Lib.GArray
import Uresourced.Lib.GHashTable
import Uresourced.Lib.LastWrite
import Uresourced.Lib.Announced
import Uresourced.Lib.PropertyStore
import Uresourced.Lib.Records
import Uresourced.Lib.Runs
import Uresourced.Lib.SharedFlag
import Uresourced.Utils
import Uresourced.SdLogin
import Uresourced.Manager.Allocation
import Uresourced.Manager.Config
import Uresourced.Manager.Memory
import Uresourced.Manager.Weights
import Uresourced.Manager.Convergence
import Uresourced.Manager.Budget
import Uresourced.Manager.Lifecycle
import Uresourced.Manager.SliceMemory
import Uresourced.Manager.Shutdown
import Uresourced.Manager.LoginRace
import Uresourced.Manager.Settling
import Uresourced.Manager.Protection
import Uresourced.Manager.Systemd
import Uresourced.AppMonitor.Info
import Uresourced.AppMonitor.Handler
import Uresourced.AppMonitor.WatchTables
import Uresourced.AppMonitor.Inotify
import Uresourced.AppMonitor.Tables
import Uresourced.AppMonitor.Tracking
import Uresourced.AppMonitor.Visit
import Uresourced.AppMonitor.Walk
import Uresourced.AppMonitor.Queue
import Uresourced.AppMonitor.Reader
import Uresourced.AppMonitor.Resting
import Uresourced.AppMonitor.SameWatches
import Uresourced.PwMonitor
import Uresourced.GameMonitor
import Uresourced.AppPolicy
import Uresourced.Units
import Uresourced.Manager.Files
import Uresourced.UserDaemon
import Uresourced.UserDaemon.UnitNames
import Uresourced.UserDaemon.Stop
import Uresourced.UserDaemon.Sources
import Uresourced.UserDaemon.Session
import Uresourced.UserDaemon.Focus
import Uresourced.Cgroupify.Kernel
import Uresourced.Cgroupify.Program
import Uresourced.Cgroupify.Leaks
import Uresourced.Cgroupify.Layout
import Uresourced.Cgroupify.Separation
import Uresourced.Cgroupify.Containment
import Uresourced.Manager.Account
