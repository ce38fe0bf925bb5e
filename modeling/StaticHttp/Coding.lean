import StaticHttp.Bytes
/-! Transfer codings. They are recognised so that they can be refused by name;
only the identity coding is ever in force. -/
namespace StaticHttp

inductive Coding where
  | chunked | compress | deflate | gzip | identity
  deriving DecidableEq, Repr

namespace Coding

def all : List Coding := [chunked, compress, deflate, gzip, identity]

def text : Coding → String
  | chunked => "Chunked"
  | compress => "Compress"
  | deflate => "Deflate"
  | gzip => "Gzip"
  | identity => "Identity"

def token (c : Coding) : Bytes := Bytes.fold (ascii c.text)

def longest : Nat := 8

def ofValue? (value : Bytes) : Option Coding := do
  let folded ← value.foldWithin longest
  all.find? fun c => c.token == folded

end Coding
end StaticHttp
