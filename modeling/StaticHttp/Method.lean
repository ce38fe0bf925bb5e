import StaticHttp.Bytes
/-! The request methods. Their tokens are upper case; any other token is none. -/
namespace StaticHttp

inductive Method where
  | get | put | post | head | delete
  deriving DecidableEq, Repr

namespace Method

def all : List Method := [get, put, post, head, delete]

def text : Method → String
  | get => "GET"
  | put => "PUT"
  | post => "POST"
  | head => "HEAD"
  | delete => "DELETE"

def token (m : Method) : Bytes := ascii m.text

def longest : Nat := 6

def ofToken? (token : Bytes) : Option Method := all.find? fun m => m.token == token

theorem ofTokenSome {token : Bytes} {m : Method} : ofToken? token = some m ↔ token = m.token := by
  constructor
  · intro found
    have same := List.find?_some found
    exact (eq_of_beq same).symm
  · rintro rfl
    cases m <;> decide

end Method
end StaticHttp
