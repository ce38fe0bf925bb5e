import StaticHttp.Proofs.HeaderGrammar
import StaticHttp.Proofs.LinePieces
import StaticHttp.Proofs.Orderly
/-! Header lines read in pieces. A value is trimmed where its line ends, perhaps many calls
after it began, and by then the buffer is longer. Its beginning is the mark, which no call
moves once the token is open: so a cut inside a value, among the blanks behind it or before
an LF does not show. -/
namespace StaticHttp.Draft

inductive FieldWaits : Draft → Prop where
  | fresh {d : Draft} (start : d.field = .start) : FieldWaits d
  | call {d e : Draft} {buffer : Bytes} {outcome : Outcome HeaderLine} (waits : FieldWaits d)
      (read : d.readHeaderLine buffer = (e, outcome)) (unrefused : ∀ fault, outcome ≠ .failed fault) : FieldWaits e

variable {d e : Draft} {buffer : Bytes}

theorem headerBeyond (beyond : buffer.length < d.cursor) : d.readHeaderLine buffer = (d, .more) := by
  rw [readHeaderLine, resume, List.drop_of_length_le (Nat.le_of_lt beyond), scan]

theorem marksInField (marked : d.field = .name ∨ d.field = .value → d.mark ≤ d.cursor)
    (inside : d.cursor ≤ buffer.length) : InField d (buffer.take d.cursor) := by
  intro token
  rw [List.length_take_of_le inside]
  exact marked token

theorem FieldWaits.marked (waits : FieldWaits d) (token : d.field = .name ∨ d.field = .value) : d.mark ≤ d.cursor := by
  induction waits with
  | fresh start => simp [start] at token
  | @call d e buffer outcome _ read unrefused ih =>
    by_cases inside : d.cursor ≤ buffer.length
    · have origin : InField d (buffer.take d.cursor) := marksInField ih inside
      cases outcome with
      | more =>
        obtain ⟨cursor, known, _⟩ := resumeMore fieldSteady inside origin read
        exact cursor ▸ known token
      | found kind =>
        obtain ⟨_, _, _, _, _, _, stopped⟩ := resumeFound fieldSteady inside origin read
        simp [stopsAtStart stopped] at token
      | failed fault => exact absurd rfl (unrefused fault)
    · rw [headerBeyond (Nat.not_le.mp inside)] at read
      cases read
      exact ih token

theorem FieldWaits.inField (waits : FieldWaits d) (inside : d.cursor ≤ buffer.length) : InField d (buffer.take d.cursor) :=
  marksInField waits.marked inside

theorem FieldWaits.again (waits : FieldWaits d) (read : d.readHeaderLine buffer = (e, .more)) :
    (d.cursor ≤ buffer.length → e.cursor = buffer.length) ∧ (buffer.length < d.cursor → e.cursor = d.cursor) ∧
      ∀ rest, Agree (d.readHeaderLine (buffer ++ rest)) (e.readHeaderLine (buffer ++ rest)) := by
  by_cases inside : d.cursor ≤ buffer.length
  · obtain ⟨cursor, _, onward⟩ := resumeMore fieldSteady inside (waits.inField inside) read
    exact ⟨fun _ => cursor, fun beyond => absurd inside (Nat.not_le.mpr beyond), onward⟩
  · rw [headerBeyond (Nat.not_le.mp inside)] at read
    cases read
    exact ⟨fun within => absurd within inside, fun _ => rfl, fun _ => .refl _⟩

theorem FieldWaits.ended (waits : FieldWaits d) (ended : (d.readHeaderLine buffer).2 ≠ .more) (rest : Bytes) :
    d.readHeaderLine (buffer ++ rest) = d.readHeaderLine buffer := by
  by_cases inside : d.cursor ≤ buffer.length
  · exact resumeEnded fieldSteady inside (waits.inField inside) ended rest
  · rw [headerBeyond (Nat.not_le.mp inside)] at ended
    contradiction

theorem FieldWaits.pieces (waits : FieldWaits d) (seen first : Bytes) (deliveries : List Bytes) :
    Agree (d.readHeaderLine (seen ++ first ++ deliveries.flatten))
      (inPieces readHeaderLine d seen (first :: deliveries)) := by
  induction deliveries generalizing d seen first with
  | nil =>
    rw [List.flatten_nil, List.append_nil, inPieces]
    cases read : d.readHeaderLine (seen ++ first) with
    | mk e outcome =>
      cases outcome with
      | more | found | failed => exact .refl _
  | cons second rest ih =>
    rw [inPieces]
    cases read : d.readHeaderLine (seen ++ first) with
    | mk e outcome =>
      cases outcome with
      | more =>
        have further : FieldWaits e := .call waits read (by simp)
        have onward := (waits.again read).2.2 (second :: rest).flatten
        rw [List.flatten_cons, ← List.append_assoc] at onward ⊢
        exact onward.trans (ih further (seen ++ first) second)
      | found _ =>
        rw [waits.ended (by simp [read]), read]
        exact .refl _
      | failed _ =>
        rw [waits.ended (by simp [read]), read]
        exact .refl _

/-- A buffer that ends before the cursor is no cut of the text, and changes nothing. -/
theorem headerLineResumes (waits : FieldWaits d) :
    (∀ buffer e, d.readHeaderLine buffer = (e, .more) →
      (d.cursor ≤ buffer.length → e.cursor = buffer.length) ∧ (buffer.length < d.cursor → e.cursor = d.cursor) ∧
      ∀ rest, Agree (d.readHeaderLine (buffer ++ rest)) (e.readHeaderLine (buffer ++ rest))) ∧
    (∀ (seen first second : Bytes) (deliveries others : List Bytes),
      first ++ deliveries.flatten = second ++ others.flatten →
      Agree (inPieces readHeaderLine d seen (first :: deliveries)) (inPieces readHeaderLine d seen (second :: others))) := by
  refine ⟨fun buffer e read => waits.again read, fun seen first second deliveries others same => ?_⟩
  have whole := waits.pieces seen first deliveries
  rw [List.append_assoc, same, ← List.append_assoc] at whole
  exact whole.symm.trans (waits.pieces seen second others)

theorem headerLineResumesInParts :
    let before := (({} : Draft).readHeaderLine (ascii "A: 1\n")).1
    let after := (before.readHeaderLine (ascii "A: 1\nB: x")).1
    let whole := ascii "A: 1\nB: x y \t\r\n"
    before.cursor = 5 ∧ after.field = .value ∧ after.cursor = 9 ∧
      Agree (before.readHeaderLine whole) (after.readHeaderLine whole) ∧
      (before.readHeaderLine whole).1.value.slice? whole = some (ascii "x y") ∧
      Agree (inPieces readHeaderLine before (ascii "A: 1\n") [ascii "B: x", ascii " y ", ascii "\t\r", ascii "\n"])
        (inPieces readHeaderLine before (ascii "A: 1\n") [ascii "B: x y \t\r\n"]) ∧
      Agree (inPieces readHeaderLine before (ascii "A: 1\n") [ascii "B: x y \t\r", ascii "\r\n"])
        (inPieces readHeaderLine before (ascii "A: 1\n") [ascii "B: x ", ascii "y \t\r\r\n"]) := by
  intro before after whole
  have taken : ({} : Draft).readHeaderLine (ascii "A: 1\n") = (before, .found .field) := by decide +kernel
  have waits : FieldWaits before := .call (.fresh rfl) taken (by simp)
  have read : before.readHeaderLine (ascii "A: 1\nB: x") = (after, .more) := by decide +kernel
  obtain ⟨again, cuttings⟩ := headerLineResumes waits
  obtain ⟨cursor, _, onward⟩ := again _ after read
  have parts : whole = ascii "A: 1\nB: x" ++ ascii " y \t\r\n" := by decide +kernel
  refine ⟨by decide +kernel, by decide +kernel, (cursor (by decide +kernel)).trans (by decide +kernel), parts ▸ onward _,
    by decide +kernel, cuttings _ _ _ _ _ (by decide +kernel), cuttings _ _ _ _ _ (by decide +kernel)⟩

end StaticHttp.Draft
