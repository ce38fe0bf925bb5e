import StaticHttp.Calendar
import StaticHttp.Server
import StaticHttp.Options
import Std.Async.TCP
import Std.Async.Timer
import Std.Time.DateTime.Timestamp
/-! The server on a socket. Everything here hands bytes over: the tree below the
root is read once at the start, and every connection is driven by its reads. -/
namespace StaticHttp.Main
open Std.Async

partial def load (entry : IO.FS.DirEntry) : IO (Bytes × Node) := do
  let name := entry.fileName.toUTF8.toList
  if ← entry.path.isDir then
    let children ← (← entry.path.readDir).toList.mapM load
    return (name, .directory children)
  else return (name, .file (← IO.FS.readBinFile entry.path).toList)

def loadRoot (root : String) : IO Site := do
  let directory := (← IO.currentDir) / root
  return ⟨← (← directory.readDir).toList.mapM load⟩

def wallClock : IO Bytes := do
  return Calendar.httpDate (← Std.Time.Timestamp.now).toSecondsSinceUnixEpoch.val.toNat

def milliseconds (d : Duration) : Std.Time.Millisecond.Offset := .ofNat d.wholeMillis

def readOne (service : Service) (client : TCP.Socket.Client) : Async Bytes := do
  let silence ← Selector.sleep (milliseconds service.limits.readTimeout)
  let read := client.recvSelector service.limits.readLimit.toUInt64
  let arrived ← Selectable.one #[
    .case read fun bytes => return bytes,
    .case silence fun _ => return none]
  return (arrived.map ByteArray.toList).getD []

def summary (e : Exchange) : String :=
  ((e.request.draft.method.map Method.text).getD "-") ++ " " ++ toString e.head.status.code ++ " " ++
    toString e.written.length

partial def converse (options : Options) (service : Service) (client : TCP.Socket.Client)
    (opened : Nat) (c : Connection) : Async Unit := do
  let read ← readOne service client
  let age := (← IO.monoNanosNow) - opened
  let next := c.deliver service ⟨← wallClock, fun _ => age⟩ read
  if options.verbose then
    for exchange in next.exchanges.reverse do IO.eprintln (summary exchange)
  if next.received ≠ [] then client.send (ByteArray.mk next.received.toArray)
  if next.stage = .draining ∧ c.stage = .serving then client.shutdown
  if next.stage ≠ .closed then converse options service client opened { next with exchanges := [] }

partial def acceptAll (options : Options) (service : Service) (listener : TCP.Socket.Server) : Async Unit := do
  let client ← listener.accept
  let opened ← IO.monoNanosNow
  background (converse options service client opened {})
  acceptAll options service listener

def listen (options : Options) : IO Unit := do
  let site ← loadRoot options.root
  let setup : Setup := {
    root := some site
    bind := some ⟨options.address, options.port⟩
    limits := options.limits
    hash := ChainTable.byteHash }
  match setup.start options.port with
  | .error fault => throw (IO.userError fault.message)
  | .ok server =>
      let some ip := Std.Net.IPv4Addr.ofString server.address.ip
        | throw (IO.userError ("not an address: " ++ server.address.ip))
      let listener ← TCP.Socket.Server.mk
      listener.bind (.v4 ⟨ip, server.address.port.toUInt16⟩)
      listener.listen server.service.limits.backlog.toUInt32
      (acceptAll options server.service listener).block

end StaticHttp.Main

def main (arguments : List String) : IO UInt32 := do
  match StaticHttp.Options.read arguments with
  | .error message =>
      IO.eprintln message
      IO.eprintln StaticHttp.Options.usage
      return 2
  | .ok options =>
      StaticHttp.Main.listen options
      return 0
