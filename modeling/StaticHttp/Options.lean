import StaticHttp.Limits
/-! The command line: `[PORT] [WORKERS] [ADDRESS]` and named options, in any
order. -/
namespace StaticHttp

structure Options where
  port : Nat := 2019
  address : String := "0.0.0.0"
  root : String := "./www"
  verbose : Bool := false
  limits : Limits := {}
  deriving DecidableEq, Repr

namespace Options

def usage : String :=
  "usage: [PORT] [WORKERS] [ADDRESS] [--root DIR] [--keep-alive-timeout SECONDS]\n" ++
  "       [--connection-time-limit SECONDS] [-v | --verbose]"

def number (name text : String) : Except String Nat :=
  match text.toNat? with
  | some n => .ok n
  | none => .error (name ++ " is not a number: " ++ text)

def position (o : Options) (given : Nat) (text : String) : Except String Options :=
  match given with
  | 0 => do
      let port ← number "PORT" text
      if port < 65536 then .ok { o with port := port } else .error ("PORT is too large: " ++ text)
  | 1 => do
      let workers ← number "WORKERS" text
      .ok { o with limits := { o.limits with workers := workers } }
  | 2 => .ok { o with address := text }
  | _ => .error ("unexpected argument: " ++ text)

def isNamed (argument : String) : Bool := argument.startsWith "-"

def named (o : Options) (name value : String) : Except String Options :=
  match name with
  | "--root" => .ok { o with root := value }
  | "--keep-alive-timeout" => do
      let seconds ← number name value
      .ok { o with limits := { o.limits with keepAlive := .ofSeconds seconds } }
  | "--connection-time-limit" => do
      let seconds ← number name value
      .ok { o with limits := { o.limits with connectionTime := .ofSeconds seconds } }
  | _ => .error ("unknown option: " ++ name)

def readFrom (o : Options) (given : Nat) : List String → Except String Options
  | [] => .ok o
  | "-v" :: rest => readFrom { o with verbose := true } given rest
  | "--verbose" :: rest => readFrom { o with verbose := true } given rest
  | [last] =>
      if isNamed last then .error (last ++ " needs a value") else o.position given last
  | argument :: value :: rest =>
      if isNamed argument then
        match o.named argument value with
        | .ok o => readFrom o given rest
        | .error message => .error message
      else
        match o.position given argument with
        | .ok o => readFrom o (given + 1) (value :: rest)
        | .error message => .error message

def read (arguments : List String) : Except String Options := readFrom {} 0 arguments

end Options
end StaticHttp
