import LtcOs.Kernel.LockOrder

/-!
Who owns a mutex.

A thread that calls `chMtxLock` owns the mutex when the call returns: at once if it was free,
and otherwise after it waited for a hand-off. An unlock hands the mutex to the first waiting
thread.
-/

namespace LtcOs.Kernel

variable {T M C : Type} [DecidableEq T] [DecidableEq M] [DecidableEq C] [Fintype T]

namespace Mtx

section HandOff

variable {idle : T} {s s' : Mtx T M C}

end HandOff

end Mtx

end LtcOs.Kernel
