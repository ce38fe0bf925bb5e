import StaticHttp.Connection
/-! A server and what it is set up from. A document root is needed, and either an
address to bind or a listener that is bound already. -/
namespace StaticHttp

structure Address where
  ip : String
  port : Nat
  deriving DecidableEq, Repr

structure Setup where
  root : Option Site := none
  bind : Option Address := none
  listener : Option Address := none
  limits : Limits := {}
  hash : Bytes → Nat

structure Server where
  service : Service
  address : Address

namespace Setup

def missingRoot : IoFault := ⟨.invalidInput, "The `root` method must be called to create"⟩

def missingAddress : IoFault :=
  ⟨.invalidInput, "The `bind` or `listener` method must be called to create"⟩

def bound (free : Nat) (address : Address) : Address :=
  if address.port = 0 then { address with port := free } else address

def start (s : Setup) (free : Nat) : Except IoFault Server :=
  match s.root, s.listener, s.bind with
  | none, _, _ => .error missingRoot
  | some site, some address, _ => .ok ⟨⟨site, s.limits, s.hash⟩, address⟩
  | some site, none, some address => .ok ⟨⟨site, s.limits, s.hash⟩, bound free address⟩
  | some _, none, none => .error missingAddress

end Setup

namespace Server

def serve (server : Server) (clock : Clock) (waiting : Nat) (chunks : List Bytes) : Bytes :=
  if server.service.limits.admits waiting then (Connection.run server.service clock chunks).received
  else []

end Server
end StaticHttp
