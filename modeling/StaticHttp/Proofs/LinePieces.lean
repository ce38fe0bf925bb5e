import StaticHttp.Proofs.RequestLine
/-! The request line read in pieces. A reader is called on all that has arrived, as long
as it asks for more. A call that asks for more stops behind the last byte, and a call
on more bytes goes on from there: what the calls come to does not tell where the text
was cut. Only a draft that was refused may show it, by its cursor. -/
namespace StaticHttp.Draft

namespace Agree
variable {α : Type} {x y z : Draft × Outcome α}

theorem symm (agree : Agree x y) : Agree y x :=
  ⟨agree.outcome.symm, Eq.symm agree.draft, fun accepted => (agree.exact (agree.outcome ▸ accepted)).symm⟩

theorem trans (first : Agree x y) (second : Agree y z) : Agree x z :=
  ⟨first.outcome.trans second.outcome, Eq.trans first.draft second.draft, fun accepted =>
    (first.exact accepted).trans (second.exact (first.outcome ▸ accepted))⟩

end Agree

def inPieces {α : Type} (read : Draft → Bytes → Draft × Outcome α) : Draft → Bytes → List Bytes → Draft × Outcome α
  | d, _, [] => (d, .more)
  | d, seen, bytes :: rest =>
      match read d (seen ++ bytes) with
      | (e, .more) => inPieces read e (seen ++ bytes) rest
      | ended => ended

inductive LineWaits : Draft → Bytes → Prop where
  | fresh : LineWaits {} []
  | more {d e : Draft} {seen bytes : Bytes} (waits : LineWaits d seen)
      (read : d.readRequestLine (seen ++ bytes) = (e, .more)) : LineWaits e (seen ++ bytes)

variable {d e : Draft} {seen buffer : Bytes}

theorem LineWaits.inLine (waits : LineWaits d seen) : d.cursor = seen.length ∧ InLine d seen := by
  induction waits with
  | fresh => exact ⟨rfl, freshInLine⟩
  | more _ read ih =>
    obtain ⟨cursor, known⟩ := ih
    obtain ⟨behind, further, _⟩ := resumeMore lineSteady (by simp [cursor]) (by simpa [cursor] using known) read
    exact ⟨behind, further⟩

theorem LineWaits.again (waits : LineWaits d seen) (grown : seen <+: buffer) (read : d.readRequestLine buffer = (e, .more)) :
    LineWaits e buffer ∧ e.cursor = buffer.length ∧
      ∀ rest, Agree (d.readRequestLine (buffer ++ rest)) (e.readRequestLine (buffer ++ rest)) := by
  obtain ⟨bytes, rfl⟩ := grown
  obtain ⟨cursor, known⟩ := waits.inLine
  obtain ⟨behind, _, onward⟩ := resumeMore lineSteady (by simp [cursor]) (by simpa [cursor] using known) read
  exact ⟨.more waits read, behind, onward⟩

theorem LineWaits.whole (waits : LineWaits d seen) (rest : Bytes) :
    Agree (({} : Draft).readRequestLine (seen ++ rest)) (d.readRequestLine (seen ++ rest)) := by
  induction waits generalizing rest with
  | fresh => exact .refl _
  | @more _ _ _ bytes before read ih =>
    -- By the step before, one call on all the bytes is a call from the draft that waited there.
    obtain ⟨_, _, onward⟩ := before.again (List.prefix_append _ _) read
    have early := ih (bytes ++ rest)
    rw [← List.append_assoc] at early
    exact early.trans (onward rest)

theorem LineWaits.ended (waits : LineWaits d seen) (grown : seen <+: buffer) (ended : (d.readRequestLine buffer).2 ≠ .more)
    (rest : Bytes) : d.readRequestLine (buffer ++ rest) = d.readRequestLine buffer := by
  obtain ⟨bytes, rfl⟩ := grown
  obtain ⟨cursor, known⟩ := waits.inLine
  exact resumeEnded lineSteady (by simp [cursor]) (by simpa [cursor] using known) ended rest

theorem LineWaits.still (waits : LineWaits d seen) : d.readRequestLine seen = (d, .more) := by
  obtain ⟨cursor, _⟩ := waits.inLine
  rw [readRequestLine, resume, cursor, List.drop_length, scan, ← cursor]

theorem LineWaits.pieces (waits : LineWaits d seen) (deliveries : List Bytes) :
    Agree (d.readRequestLine (seen ++ deliveries.flatten)) (inPieces readRequestLine d seen deliveries) := by
  induction deliveries generalizing d seen with
  | nil =>
    rw [List.flatten_nil, List.append_nil, waits.still]
    exact .refl _
  | cons bytes rest ih =>
    have grown : seen <+: seen ++ bytes := List.prefix_append seen bytes
    rw [List.flatten_cons, ← List.append_assoc]
    cases read : d.readRequestLine (seen ++ bytes) with
    | mk e outcome =>
      cases outcome with
      | more =>
        obtain ⟨further, _, onward⟩ := waits.again grown read
        simp only [inPieces, read]
        exact (onward rest.flatten).trans (ih further)
      | found _ =>
        simp only [inPieces, read, waits.ended grown (by simp [read]) rest.flatten]
        exact .refl _
      | failed _ =>
        simp only [inPieces, read, waits.ended grown (by simp [read]) rest.flatten]
        exact .refl _

theorem requestLineResumes (waits : LineWaits d seen) :
    (∀ buffer e, seen <+: buffer → d.readRequestLine buffer = (e, .more) →
      e.cursor = buffer.length ∧
      ∀ rest, Agree (d.readRequestLine (buffer ++ rest)) (e.readRequestLine (buffer ++ rest))) ∧
    (∀ deliveries others : List Bytes, deliveries.flatten = others.flatten →
      Agree (inPieces readRequestLine d seen deliveries) (inPieces readRequestLine d seen others)) := by
  refine ⟨fun buffer e grown read => (waits.again grown read).2, fun deliveries others same => ?_⟩
  have whole := waits.pieces deliveries
  rw [same] at whole
  exact whole.symm.trans (waits.pieces others)

theorem requestLineResumesInParts :
    let before := (({} : Draft).readRequestLine (ascii "PU")).1
    let after := (before.readRequestLine (ascii "PUT /a")).1
    LineWaits before (ascii "PU") ∧ after.cursor = 6 ∧
      (before.readRequestLine (ascii "PUT /a.b HTTP/1.2\r\n")).2 = .failed .unsupportedVersion ∧
      Agree (before.readRequestLine (ascii "PUT /a.b HTTP/1.2\r\n")) (after.readRequestLine (ascii "PUT /a.b HTTP/1.2\r\n")) ∧
      Agree (inPieces readRequestLine before (ascii "PU") [ascii "T /a", ascii ".b HTTP/1.", ascii "2\r\n"])
        (inPieces readRequestLine before (ascii "PU") [ascii "T /a.b HTTP/1.2\r\n"]) := by
  intro before after
  have waits : LineWaits before ([] ++ ascii "PU") := .more .fresh (by decide +kernel)
  have read : before.readRequestLine (ascii "PUT /a") = (after, .more) := by decide +kernel
  have failed : (before.readRequestLine (ascii "PUT /a.b HTTP/1.2\r\n")).2 = .failed .unsupportedVersion := by
    decide +kernel
  obtain ⟨again, cuttings⟩ := requestLineResumes waits
  obtain ⟨cursor, onward⟩ := again _ after ⟨ascii "T /a", by decide +kernel⟩ read
  refine ⟨waits, cursor, failed, ?_, cuttings _ _ (by decide +kernel)⟩
  have parts : ascii "PUT /a.b HTTP/1.2\r\n" = ascii "PUT /a" ++ ascii ".b HTTP/1.2\r\n" := by decide +kernel
  rw [parts]
  exact onward _

end StaticHttp.Draft
