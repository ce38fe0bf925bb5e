import StaticHttp.ChainTable
import StaticHttp.Span
/-! The header fields a server takes note of. A name is looked up in lower case;
unknown names, and all names too long to be known, are passed over. -/
namespace StaticHttp

inductive Field where
  | accept | acceptCharset | acceptEncoding | acceptLanguage | cacheControl | contentLength
  | connection | cookie | date | host | ifModifiedSince | ifUnmodifiedSince | maxForwards
  | range | referer | transferEncoding | userAgent
  deriving DecidableEq, Repr

inductive Treatment where
  | none
  | connection
  | contentLength
  | transferEncoding
  deriving DecidableEq, Repr

namespace Field

def all : List Field :=
  [accept, acceptCharset, acceptEncoding, acceptLanguage, cacheControl, contentLength, connection,
   cookie, date, host, ifModifiedSince, ifUnmodifiedSince, maxForwards, range, referer,
   transferEncoding, userAgent]

def name : Field → String
  | accept => "accept"
  | acceptCharset => "accept-charset"
  | acceptEncoding => "accept-encoding"
  | acceptLanguage => "accept-language"
  | cacheControl => "cache-control"
  | contentLength => "content-length"
  | connection => "connection"
  | cookie => "cookie"
  | date => "date"
  | host => "host"
  | ifModifiedSince => "if-modified-since"
  | ifUnmodifiedSince => "if-unmodified-since"
  | maxForwards => "max-forwards"
  | range => "range"
  | referer => "referer"
  | transferEncoding => "transfer-encoding"
  | userAgent => "user-agent"

def treatment : Field → Treatment
  | contentLength => .contentLength
  | connection => .connection
  | transferEncoding => .transferEncoding
  | _ => .none

def key (f : Field) : Bytes := ascii f.name

def longestName : Nat := 32

def table (hash : Bytes → Nat) : ChainTable Field :=
  (ChainTable.empty hash 64).insertAll (all.map fun f => (f.key, f))

def ofName? (hash : Bytes → Nat) (name : Bytes) : Option Field := do
  let folded ← name.foldWithin longestName
  (table hash).find? folded

end Field

abbrev FieldSpans := List (Field × Span)

namespace FieldSpans

def get? (spans : FieldSpans) (field : Field) : Option Span := spans.lookup field

def set (spans : FieldSpans) (field : Field) (value : Span) : FieldSpans :=
  (field, value) :: spans.filter fun entry => entry.1 != field

def value (spans : FieldSpans) (field : Field) (buffer : Bytes) : Option Bytes := do
  let span ← spans.get? field
  span.slice? buffer

theorem getSetSame (spans : FieldSpans) (field : Field) (value : Span) :
    (spans.set field value).get? field = some value := by
  simp [set, get?]

theorem getSetOther (spans : FieldSpans) {field other : Field} (value : Span) (different : other ≠ field) :
    (spans.set field value).get? other = spans.get? other := by
  have head : (other == field) = false := by simpa using different
  simp only [set, get?, List.lookup_cons, head]
  induction spans with
  | nil => rfl
  | cons entry rest ih =>
    obtain ⟨noted, span⟩ := entry
    by_cases same : noted = field
    · subst same
      simpa [List.lookup_cons, head] using ih
    · by_cases here : other == noted <;> simp [List.lookup_cons, same, here, ih]

end FieldSpans
end StaticHttp
