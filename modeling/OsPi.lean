import OsPi.Cache.LruCorrect
import OsPi.Proc.Placement
import OsPi.Sched.Cpus
import OsPi.Sched.Kill
import OsPi.Sched.Wakeups
import OsPi.Sched.Tree
import OsPi.Sched.Sleep
import OsPi.Pipe.Wakeups
import OsPi.Sched.Mutexes
import OsPi.Sched.Semaphores
import OsPi.Fs.ReadBack
import OsPi.Fs.Overwrite
import OsPi.Shell.Packing
import OsPi.Fs.Bitmaps
import OsPi.Fs.Clearing
import OsPi.Fs.RawInodes
import OsPi.Fs.Gpt
import OsPi.Memory.HeapPointers
import OsPi.Memory.UserHeap
import OsPi.Memory.Unmapping
import OsPi.Memory.TableWords
import OsPi.Sched.Notices
import OsPi.Tty.Commit
import OsPi.User.Editor
import OsPi.Shell.Jobs
import OsPi.User.Grep
import OsPi.Sched.Turns
