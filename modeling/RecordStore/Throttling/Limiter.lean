import RecordStore.Decimal.Binary64

/-!
# Rate limiters

A limiter hands out permits at a steady rate and saves those of one idle second. A call takes as
many permits as the call before it consumed. It waits for the debt of earlier calls only, and the
permits that it takes itself push back the call after it. Times are whole nanoseconds.
-/

namespace RecordStore

structure Limiter where
  /-- Whether calls ever wait. -/
  enabled : Bool
  /-- The permits refilled per second, which are also the most that are saved. -/
  rate : Float
  /-- The permits saved while nothing was asked for. -/
  stored : Float
  /-- When the permits taken so far are paid for. -/
  nextFree : Nat
  /-- The permits that the next call takes. -/
  nextAcquire : Float
  deriving Inhabited

namespace Limiter

/-- A value raised to one, also when it is not a number. -/
def atLeastOne (value : Float) : Float :=
  if value > 1.0 then value else 1.0

/-- A limiter made at some time, which refills at a percentage of the provisioned units, though at
least one per second. Nothing is limited without provisioned units. -/
def ofProvisioned (units : Int64) (percent : Float) (enabled : Bool) (now : Nat) : Limiter where
  enabled := enabled && units > 0
  rate := atLeastOne (units.toFloat * percent / 100.0)
  stored := 0.0
  nextFree := now
  nextAcquire := 1.0

/-- A limiter that never lets a call wait. -/
def unlimited (now : Nat) : Limiter :=
  ofProvisioned 0 100.0 false now

/-- A time in seconds. -/
def seconds (nanoseconds : Nat) : Float :=
  (nanoseconds / 1000000000).toFloat + (nanoseconds % 1000000000).toFloat / 1000000000.0

/-- The nearest whole number of nanoseconds, of two the even one. -/
def nanoseconds (seconds : Float) : Nat :=
  let (numerator, denominator) := (Decimal.Binary64.ofFloat seconds).ratio
  Decimal.Binary64.roundEven (numerator * 1000000000) denominator

/-- The limiter with the permits of the idle time before `now` saved. -/
def refilled (limiter : Limiter) (now : Nat) : Limiter :=
  if now > limiter.nextFree then
    { limiter with
      stored := min (limiter.stored + seconds (now - limiter.nextFree) * limiter.rate) limiter.rate
      nextFree := now }
  else limiter

/-- Takes the permits of a call and tells how long the call has to wait. -/
def reserve (limiter : Limiter) (now : Nat) : Nat × Limiter :=
  if limiter.enabled then
    let limiter := limiter.refilled now
    let saved := min limiter.nextAcquire limiter.stored
    let fresh := limiter.nextAcquire - saved
    (limiter.nextFree - now,
      { limiter with
        stored := limiter.stored - saved
        nextFree := limiter.nextFree + nanoseconds (fresh / limiter.rate) })
  else (0, limiter)

/-- Lets the next call take what a call consumed beyond its first unit, though at least one. -/
def recordConsumed (limiter : Limiter) (units : Float) : Limiter :=
  { limiter with nextAcquire := atLeastOne (units - 1.0).ceil }

end Limiter

end RecordStore
