/-! The response statuses, with the code and the reason phrase of each. -/
namespace StaticHttp

inductive Status where
  | ok | noContent | partialContent
  | movedPermanently | found | notModified
  | badRequest | unauthorized | forbidden | notFound | methodNotAllowed | requestTimeout
  | lengthRequired | payloadTooLarge | uriTooLong | unsupportedMediaType
  | requestHeaderFieldsTooLarge
  | internalServerError | notImplemented | serviceUnavailable | httpVersionNotSupported
  deriving DecidableEq, Repr

namespace Status

def code : Status → Nat
  | ok => 200
  | noContent => 204
  | partialContent => 206
  | movedPermanently => 301
  | found => 302
  | notModified => 304
  | badRequest => 400
  | unauthorized => 401
  | forbidden => 403
  | notFound => 404
  | methodNotAllowed => 405
  | requestTimeout => 408
  | lengthRequired => 411
  | payloadTooLarge => 413
  | uriTooLong => 414
  | unsupportedMediaType => 415
  | requestHeaderFieldsTooLarge => 431
  | internalServerError => 500
  | notImplemented => 501
  | serviceUnavailable => 503
  | httpVersionNotSupported => 505

def reason : Status → String
  | ok => "OK"
  | noContent => "No Content"
  | partialContent => "Partial Content"
  | movedPermanently => "Moved Permanently"
  | found => "Found"
  | notModified => "Not Modified"
  | badRequest => "Bad Request"
  | unauthorized => "Unauthorized"
  | forbidden => "Forbidden"
  | notFound => "Not Found"
  | methodNotAllowed => "Method Not Allowed"
  | requestTimeout => "Request Timeout"
  | lengthRequired => "Length Required"
  | payloadTooLarge => "Payload Too Large"
  | uriTooLong => "URI Too Long"
  | unsupportedMediaType => "Unsupported Media Type"
  | requestHeaderFieldsTooLarge => "Request Header Fields Too Large"
  | internalServerError => "Internal Server Error"
  | notImplemented => "Not Implemented"
  | serviceUnavailable => "Service Unavailable"
  | httpVersionNotSupported => "HTTP Version Not Supported"

def isSuccess (s : Status) : Bool := 200 ≤ s.code && s.code ≤ 299

end Status
end StaticHttp
