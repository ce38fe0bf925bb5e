import StaticHttp.Bytes
/-! What reading needs of a byte buffer: the bytes that are not given up yet, and
giving up some of them from the front. A plain byte string is such a queue too,
one without an offset. -/
namespace StaticHttp

class ByteQueue (β : Type) where
  unread : β → Bytes
  consume : β → Nat → β

instance : ByteQueue Bytes := ⟨id, fun bytes n => bytes.drop n⟩

namespace ByteQueue

@[simp] theorem unreadBytes (bytes : Bytes) : unread bytes = bytes := rfl

@[simp] theorem consumeBytes (bytes : Bytes) (n : Nat) : consume bytes n = bytes.drop n := rfl

end ByteQueue
end StaticHttp
