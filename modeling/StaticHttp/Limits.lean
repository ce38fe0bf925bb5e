/-! What a server allows. Durations are whole nanoseconds, sizes are bytes. -/
namespace StaticHttp

abbrev Duration := Nat

namespace Duration

def ofMillis (n : Nat) : Duration := n * 1000000
def ofSeconds (n : Nat) : Duration := ofMillis (n * 1000)
def wholeMillis (d : Duration) : Nat := d / 1000000
def wholeSeconds (d : Duration) : Nat := d / 1000000000

end Duration

structure Limits where
  readTimeout : Duration := .ofSeconds 30
  writeTimeout : Duration := .ofSeconds 30
  /- Responses on an older connection announce its end. -/
  connectionTime : Duration := .ofSeconds 60
  keepAlive : Duration := .ofSeconds 30
  /- Request line and headers together; an incomplete head may not reach it. -/
  headLimit : Nat := 8192
  bodyLimit : Nat := 8388608
  readLimit : Nat := 4096
  replyCapacity : Nat := 512
  replyCapacityKept : Nat := 4096
  /- The number of workers; zero stands for one per processor. -/
  workers : Nat := 0
  pending : Nat := 1024
  backlog : Nat := 1024
  deriving DecidableEq, Repr

namespace Limits

def workerCount (limits : Limits) (processors : Nat) : Nat :=
  if limits.workers = 0 then processors else limits.workers

def admits (limits : Limits) (waiting : Nat) : Bool := waiting < limits.pending

end Limits
end StaticHttp
