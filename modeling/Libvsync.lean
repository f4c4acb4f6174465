import Libvsync.Atomic.Fallback
import Libvsync.Bitmap.BitmapIter
import Libvsync.Bitmap.BitmapRange
import Libvsync.Map.Hashtable
import Libvsync.Map.ListsetCoarse
import Libvsync.Map.ListsetFineSafe
import Libvsync.Map.ListsetLazySet
import Libvsync.Map.ListsetOptSet
import Libvsync.Map.SimplehtStops
import Libvsync.Map.SimplehtThreadsSafe
import Libvsync.Map.SkiplistAtomic
import Libvsync.Map.TreesetBstSet
import Libvsync.Map.TreesetCoarse
import Libvsync.Pool.CachedPoolHoard
import Libvsync.Queue.BbqMpmcSafe
import Libvsync.Queue.BbqSize
import Libvsync.Queue.BbqSpscWrap
import Libvsync.Queue.BoundedLocked
import Libvsync.Queue.BoundedMpmc
import Libvsync.Queue.BoundedSpsc
import Libvsync.Queue.Cachedq
import Libvsync.Queue.ChaseLev
import Libvsync.Queue.Mpsc
import Libvsync.Queue.PrioHeapSafe
import Libvsync.Queue.PrioSkiplistQueue
import Libvsync.Queue.PrioTree
import Libvsync.Queue.UnboundedLfRecycleSafe
import Libvsync.Queue.UnboundedLfSafe
import Libvsync.Queue.UnboundedTotal
import Libvsync.Smr.EbrReclaim
import Libvsync.Smr.NodesList
import Libvsync.Spinlock.Arraylock
import Libvsync.Spinlock.Clhlock
import Libvsync.Spinlock.CnalockSafe
import Libvsync.Spinlock.HclhlockSafe
import Libvsync.Spinlock.HemlockSafe
import Libvsync.Spinlock.HmcslockInit
import Libvsync.Spinlock.HmcslockSafe
import Libvsync.Spinlock.Mcslock
import Libvsync.Spinlock.Seqcount
import Libvsync.Spinlock.Ticketlock
import Libvsync.Spinlock.TwalockSafe
import Libvsync.Stack.EliminationSafe
import Libvsync.Stack.Quack
import Libvsync.Thread.FutexMockSafe
import Libvsync.Thread.Musl
import Libvsync.Thread.Once
import Libvsync.Utils.Backoff
import Libvsync.Utils.RecursiveLock
import Libvsync.Utils.Xbo
