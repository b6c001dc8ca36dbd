/-!
# Retries

How often and how long after each other the unprocessed part of a batch is sent again. Attempts
count from one.
-/

namespace RecordStore

structure RetryPolicy where
  /-- The most calls for one batch; without it there is no limit. -/
  maxAttempts : Option Nat
  /-- The wait after the first attempt, in nanoseconds. -/
  initialDelay : Nat
  /-- The longest wait, in nanoseconds. -/
  maxDelay : Nat
  deriving DecidableEq, Inhabited, Repr

namespace RetryPolicy

/-- Ten attempts, the first two of them 50 milliseconds apart and none more than two seconds. -/
def standard : RetryPolicy :=
  ⟨some 10, 50000000, 2000000000⟩

/-- Tries without end and without waiting. -/
def unbounded : RetryPolicy :=
  ⟨none, 0, 0⟩

/-- How many times the initial delay is due after an attempt. It doubles up to the largest number
of 32 bits. -/
def factor (attempt : Nat) : Nat :=
  if attempt ≤ 32 then Nat.pow 2 (attempt - 1) else UInt32.size - 1

/-- The wait after an attempt. -/
def delay (policy : RetryPolicy) (attempt : Nat) : Nat :=
  min (policy.initialDelay * factor attempt) policy.maxDelay

/-- Whether another attempt may follow. -/
def allowsRetry (policy : RetryPolicy) (attempt : Nat) : Bool :=
  policy.maxAttempts.all fun limit => attempt < limit

end RetryPolicy

end RecordStore
