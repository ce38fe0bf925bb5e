import StaticHttp.Fault
import StaticHttp.Method
import StaticHttp.Version
import StaticHttp.Text.Utf8
import StaticHttp.Text.Quoted
/-! What a server writes to its log about requests. -/
namespace StaticHttp

inductive Event where
  | request (method : Option Method) (target host : Option Bytes) (version : Version)
  | rejected (fault : Fault)
  /- A fault after which the connection goes on. -/
  | failed (fault : Fault)
  | climbing (path : Bytes)
  deriving DecidableEq, Repr

namespace Event

inductive Level where
  | debug | warn
  deriving DecidableEq, Repr

def Level.text : Level → String
  | debug => "DEBUG"
  | warn => "WARN"

inductive Value where
  | number (n : Nat)
  | text (s : String)
  deriving DecidableEq, Repr

def level : Event → Level
  | request .. | failed _ => .debug
  | rejected _ | climbing _ => .warn

def message : Event → String
  | request .. => "request"
  | rejected _ => "rejecting request"
  | failed _ => "request failed"
  | climbing _ => "refusing path outside the document root"

def quoted (bytes : Option Bytes) : Value :=
  .text (String.ofList (Text.quoteOption (bytes.map Utf8.lossy)))

def fields : Event → List (String × Value)
  | request method target host version =>
      (method.map fun m => ("method", Value.text m.text)).toList ++
        [("url", quoted target), ("host", quoted host), ("version", .text version.summary)]
  | rejected fault =>
      [("status", .number fault.status.code), ("reason", .text fault.status.reason),
       ("error", .text fault.text)]
  | failed fault => [("status", .number fault.status.code), ("error", .text fault.text)]
  | climbing path => [("path", .text (String.ofList (Utf8.lossy path)))]

def ofFault (fault : Fault) : Event := if fault.closes then rejected fault else failed fault

end Event
end StaticHttp
