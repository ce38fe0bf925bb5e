import StaticHttp.ChainTable
/-! Content types by file extension, in any letter case. -/
namespace StaticHttp.Mime

def fallback : String := "text/html"

def types : List (String × String) :=
  [("html", "text/html"),
   ("htm", "text/html"),
   ("css", "text/css"),
   ("txt", "text/plain"),
   ("xml", "text/xml"),
   ("csv", "text/csv"),
   ("js", "application/javascript"),
   ("mjs", "application/javascript"),
   ("json", "application/json"),
   ("pdf", "application/pdf"),
   ("zip", "application/zip"),
   ("word", "application/msword"),
   ("doc", "application/msword"),
   ("wasm", "application/wasm"),
   ("gif", "image/gif"),
   ("jpeg", "image/jpeg"),
   ("jpg", "image/jpeg"),
   ("png", "image/png"),
   ("svg", "image/svg+xml"),
   ("ico", "image/x-icon"),
   ("webp", "image/webp"),
   ("mp4", "video/mp4"),
   ("webm", "video/webm"),
   ("mp3", "audio/mpeg"),
   ("woff", "font/woff"),
   ("woff2", "font/woff2"),
   ("ttf", "font/ttf")]

def longestExtension : Nat := 8

def table (hash : Bytes → Nat) : ChainTable String :=
  (ChainTable.empty hash 64).insertAll (types.map fun t => (ascii t.1, t.2))

def ofExtension (hash : Bytes → Nat) (extension : Bytes) : String :=
  ((extension.foldWithin longestExtension).bind (table hash).find?).getD fallback

end StaticHttp.Mime
