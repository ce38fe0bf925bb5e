import StaticHttp.Draft
/-! Bodies are counted, never kept. -/
namespace StaticHttp.Draft

def readBody (d : Draft) (buffer : Bytes) : Draft × Outcome Unit :=
  let taken := min (Word.sub d.contentLength d.bodyRead) (buffer.length - d.cursor)
  let counted := { d with bodyRead := d.bodyRead + taken, cursor := d.cursor + taken }
  (counted, if counted.bodyRead ≥ d.contentLength then .found () else .more)

end StaticHttp.Draft
