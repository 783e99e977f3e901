/-!
# Status codes and time points

`types.h`.  `status_code` is an `int`; the library itself only ever returns the
enumerators below, but a message handler written by a client may return anything.

A time point is a number of ticks since the epoch, and the epoch is the empty one.
-/

namespace Mqmx

inductive ExitStatus
  | success | finished | timeout | alreadyExist | invalidArgument | notSupported
  | notFound | restartNeeded | haltRequested | pauseRequested | notAllowed
  deriving DecidableEq, Repr

/-- `is_time_point_empty`. -/
def isTimePointEmpty (tp : Int) : Prop := tp = 0

instance (tp : Int) : Decidable (isTimePointEmpty tp) := inferInstanceAs (Decidable (tp = 0))

end Mqmx
