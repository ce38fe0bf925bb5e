import StaticHttp.Proofs.HeaderLines
/-! The header lines of a head together, each acting as soon as it is complete. A
line acts through its name and value alone, which stand before the byte that ends
it; the blank line ends the head at the first blank line of the text. -/
namespace StaticHttp.Draft
open HeadEnd (Open Closed IsHead)

structure LineMeaning (d e : Draft) : Prop where
  fields : e.fields = d.fields ∨ ∃ field, e.fields = d.fields.set field d.value
  frame : e = { d with
    fields := e.fields, coding := e.coding, contentLength := e.contentLength, keepAlive := e.keepAlive }

theorem treatFrame (limits : Limits) (d : Draft) (treatment : Treatment) (value : Bytes) :
    (treat limits d treatment value).1.fields = d.fields ∧
    (treat limits d treatment value).1 = { d with
      coding := (treat limits d treatment value).1.coding
      contentLength := (treat limits d treatment value).1.contentLength
      keepAlive := (treat limits d treatment value).1.keepAlive } := by
  cases treatment with
  | none => exact ⟨rfl, rfl⟩
  | connection =>
    simp only [treat]
    split
    all_goals exact ⟨rfl, rfl⟩
  | contentLength =>
    simp only [treat]
    split
    all_goals exact ⟨rfl, rfl⟩
  | transferEncoding =>
    simp only [treat]
    split
    all_goals exact ⟨rfl, rfl⟩

theorem lineMeaning (hash : Bytes → Nat) (limits : Limits) (d : Draft) (buffer : Bytes) :
    LineMeaning d (d.applyLine hash limits buffer).1 := by
  unfold applyLine
  split
  · exact ⟨.inl rfl, rfl⟩
  · split
    · rename_i field _
      unfold accept
      split
      · rename_i value _
        have treated := treatFrame limits { d with fields := d.fields.set field d.value } field.treatment value
        exact ⟨.inr ⟨field, treated.1⟩, by rw [treated.2]⟩
      · exact ⟨.inr ⟨field, rfl⟩, rfl⟩
    · exact ⟨.inl rfl, rfl⟩

theorem applyStable {d : Draft} {buffer : Bytes} (within : d.Within buffer.length) (hash : Bytes → Nat) (limits : Limits)
    (more : Bytes) : d.applyLine hash limits (buffer ++ more) = d.applyLine hash limits buffer := by
  unfold applyLine accept
  rw [Span.sliceAppend within.name, Span.sliceAppend within.value]

theorem LineMeaning.within {d e : Draft} {n : Nat} (meaning : LineMeaning d e) (within : d.Within n) :
    e.Within n := by
  have fields : ∀ entry ∈ e.fields, entry.2.reach ≤ n := by
    rcases meaning.fields with same | ⟨field, noted⟩
    · exact same ▸ within.fields
    · exact noted ▸ setWithin within.fields field within.value
  rw [meaning.frame]
  exact ⟨within.mark, within.name, within.value, within.target, fields⟩

def headerFaults : List Fault :=
  [.invalidHeader, .invalidConnection, .invalidContentLength, .bodyTooLarge, .invalidTransferEncoding,
   .unsupportedTransferEncoding]

theorem reuseFault {value : Bytes} {fault : Fault} (refused : announcedReuse value = .error fault) :
    fault = .invalidConnection := by
  unfold announcedReuse at refused
  repeat' split at refused
  all_goals cases refused
  rfl

theorem lengthFault {limits : Limits} {value : Bytes} {fault : Fault}
    (refused : announcedLength limits value = .error fault) :
    fault = .invalidContentLength ∨ fault = .bodyTooLarge := by
  unfold announcedLength at refused
  repeat' split at refused
  all_goals cases refused
  · exact .inl rfl
  · exact .inr rfl
  · exact .inl rfl

theorem treatFault {limits : Limits} {d e : Draft} {treatment : Treatment} {value : Bytes} {fault : Fault}
    (refused : treat limits d treatment value = (e, some fault)) : fault ∈ headerFaults := by
  cases treatment with
  | none => simp [treat] at refused
  | connection =>
    simp only [treat] at refused
    split at refused
    · simp at refused
    · rename_i told
      cases refused
      simp [reuseFault told, headerFaults]
  | contentLength =>
    simp only [treat] at refused
    split at refused
    · simp at refused
    · rename_i told
      cases refused
      rcases lengthFault told with rfl | rfl
      · decide
      · decide
  | transferEncoding =>
    simp only [treat] at refused
    split at refused
    all_goals cases refused
    all_goals decide

theorem applyFault {hash : Bytes → Nat} {limits : Limits} {d e : Draft} {buffer : Bytes} {fault : Fault}
    (refused : d.applyLine hash limits buffer = (e, some fault)) : fault ∈ headerFaults := by
  unfold applyLine at refused
  split at refused
  · cases refused
    decide
  · split at refused
    · unfold accept at refused
      split at refused
      · exact treatFault refused
      · cases refused
        decide
    · cases refused

def LengthTold (d : Draft) (text : Bytes) : Prop :=
  d.fields.get? .contentLength = none ∧ d.contentLength = 0 ∨
    ∃ value, d.fields.value .contentLength text = some value ∧ Decimal.read? value = some d.contentLength

theorem LengthTold.append {d : Draft} {text : Bytes} (told : LengthTold d text) (within : d.Within text.length)
    (more : Bytes) : LengthTold d (text ++ more) := by
  rcases told with none | ⟨value, noted, number⟩
  · exact .inl none
  · exact .inr ⟨value, (FieldSpans.valueAppend within.fields _ more).trans noted, number⟩

theorem treatmentLength {field : Field} (length : field.treatment = .contentLength) :
    field = .contentLength := by
  cases field <;> simp [Field.treatment] at length ⊢

theorem announcedTaken {limits : Limits} {value : Bytes} {length : Nat} : announcedLength limits value = .ok length ↔
    Decimal.read? value = some length ∧ 0 < length ∧ length ≤ limits.bodyLimit := by
  unfold announcedLength
  cases read : Decimal.read? value with
  | none => simp
  | some length => grind

theorem announcedBeyond {limits : Limits} {value : Bytes} : announcedLength limits value = .error .bodyTooLarge ↔
    ∃ length, Decimal.read? value = some length ∧ limits.bodyLimit < length := by
  unfold announcedLength
  cases read : Decimal.read? value with
  | none => simp
  | some length => grind

theorem announcedInvalid {limits : Limits} {value : Bytes} :
    announcedLength limits value = .error .invalidContentLength ↔
      ∀ length, Decimal.read? value = some length → length = 0 := by
  unfold announcedLength
  cases read : Decimal.read? value with
  | none => simp
  | some length => grind

theorem treatLength {limits : Limits} {d e : Draft} {treatment : Treatment} {value : Bytes}
    (acts : treat limits d treatment value = (e, none)) :
    treatment ≠ .contentLength ∧ e.contentLength = d.contentLength ∨
      treatment = .contentLength ∧ Decimal.read? value = some e.contentLength := by
  cases treatment with
  | none =>
    cases acts
    exact .inl ⟨by decide, rfl⟩
  | connection =>
    simp only [treat] at acts
    split at acts
    all_goals cases acts
    exact .inl ⟨by decide, rfl⟩
  | contentLength =>
    simp only [treat] at acts
    split at acts
    · rename_i announced
      cases acts
      exact .inr ⟨rfl, (announcedTaken.mp announced).1⟩
    · cases acts
  | transferEncoding =>
    simp only [treat] at acts
    split at acts
    all_goals cases acts

theorem acceptTold {limits : Limits} {d e : Draft} {field : Field} {text : Bytes} (told : LengthTold d text)
    (acts : d.accept limits field text = (e, none)) : LengthTold e text := by
  unfold accept at acts
  split at acts
  · rename_i value sliced
    have fields : e.fields = d.fields.set field d.value := by
      have kept := (treatFrame limits { d with fields := d.fields.set field d.value } field.treatment value).1
      simpa only [acts] using kept
    rcases treatLength acts with ⟨other, length⟩ | ⟨this, number⟩
    · have different : Field.contentLength ≠ field := fun same => other (same ▸ rfl)
      have noted := FieldSpans.getSetOther d.fields d.value different
      simp only [LengthTold, FieldSpans.value, fields, length, noted]
      exact told
    · obtain rfl := treatmentLength this
      refine .inr ⟨value, ?_, number⟩
      simp only [FieldSpans.value, fields, FieldSpans.getSetSame, bind, Option.bind, sliced]
  · cases acts

theorem applyTold {hash : Bytes → Nat} {limits : Limits} {d e : Draft} {text : Bytes} (told : LengthTold d text)
    (acts : d.applyLine hash limits text = (e, none)) : LengthTold e text := by
  unfold applyLine at acts
  split at acts
  · cases acts
  · split at acts
    · exact acceptTold told acts
    · cases acts
      exact told

theorem HeaderEffect.told {text : Bytes} {d e : Draft} {buffer : Bytes} {position : Nat}
    (effect : HeaderEffect buffer d position e) (told : LengthTold d text) : LengthTold e text := by
  rw [effect.frame]
  exact told

structure InHead (d : Draft) (text : Bytes) : Prop where
  within : d.Within text.length
  stands : Stands d.field text
  noBlank : Open text
  noBody : d.bodyRead = 0
  told : LengthTold d text

inductive HeadStep (hash : Bytes → Nat) (limits : Limits) (buffer : Bytes) (d : Draft) (position : Nat) (b : UInt8) :
    Verdict Unit → Prop where
  | inside {e : Draft} (judged : headerByte buffer d position b = .next e) :
      HeadStep hash limits buffer d position b (.next e)
  | line {e f : Draft} (judged : headerByte buffer d position b = .stop e .field)
      (acts : e.applyLine hash limits buffer = (f, none)) : HeadStep hash limits buffer d position b (.next f)
  | blank {e : Draft} (judged : headerByte buffer d position b = .stop e .blank) :
      HeadStep hash limits buffer d position b (.stop e ())
  | refusedLine {e f : Draft} {fault : Fault} (judged : headerByte buffer d position b = .stop e .field)
      (acts : e.applyLine hash limits buffer = (f, some fault)) :
      HeadStep hash limits buffer d position b (.refuse f fault)
  | refused {e : Draft} {fault : Fault} (judged : headerByte buffer d position b = .refuse e fault) :
      HeadStep hash limits buffer d position b (.refuse e fault)

theorem headStep (hash : Bytes → Nat) (limits : Limits) (buffer : Bytes) (d : Draft) (position : Nat) (b : UInt8) :
    HeadStep hash limits buffer d position b (headByte hash limits buffer d position b) := by
  unfold headByte
  cases judged : headerByte buffer d position b with
  | next e => exact .inside judged
  | refuse e fault => exact .refused judged
  | stop e line =>
    cases line with
    | blank => exact .blank judged
    | field =>
      simp only
      split
      · rename_i acts
        exact .line judged acts
      · rename_i acts
        exact .refusedLine judged acts

theorem headStable {text : Bytes} {d : Draft} (inHead : InHead d text) (hash : Bytes → Nat) (limits : Limits) (b : UInt8)
    (more : Bytes) :
    headByte hash limits (text ++ [b] ++ more) d text.length b = headByte hash limits (text ++ [b]) d text.length b := by
  have inside : text.length ≤ (text ++ [b]).length := by simp
  have judged := headerStable (Nat.le_trans inHead.within.mark inside) inside more b
  have effect := headerEffect (text ++ [b]) d text.length b
  unfold headByte
  rw [judged]
  cases verdict : headerByte (text ++ [b]) d text.length b with
  | next e => rfl
  | refuse e fault => rfl
  | stop e line =>
    rw [verdict] at effect
    cases line with
    | blank => rfl
    | field => simp only [applyStable (effect.within inHead.within) hash limits more]

/- The end of a line sets the cursor, so that a draft whose line was complete has
forgotten the cursor it came with. -/
theorem headBlind (hash : Bytes → Nat) (limits : Limits) (buffer : Bytes) (d : Draft) (position : Nat) (b : UInt8) (n : Nat) :
    (headByte hash limits buffer d position b).Alike (headByte hash limits buffer (d.parked n) position b) := by
  have judged := headerParked buffer d position b n
  unfold headByte
  rw [judged]
  cases verdict : headerByte buffer d position b with
  | next e => exact .next (e.alikeParked n)
  | refuse e fault => exact .refuse (e.alikeParked n) fault
  | stop e line =>
    cases line with
    | blank => exact .stop e ()
    | field =>
      simp only [Verdict.parked]
      split
      · exact .next rfl
      · exact .refuse rfl _

theorem InHead.next {hash : Bytes → Nat} {limits : Limits} {text : Bytes} {d e : Draft} {b : UInt8} (inHead : InHead d text)
    (next : headByte hash limits (text ++ [b]) d text.length b = .next e) : InHead e (text ++ [b]) := by
  have step := headStep hash limits (text ++ [b]) d text.length b
  have effect := headerEffect (text ++ [b]) d text.length b
  rw [next] at step
  cases step with
  | inside judged =>
    rw [judged] at effect
    obtain ⟨other, stands⟩ := headerNext inHead.stands judged
    have noBody : e.bodyRead = d.bodyRead := by rw [effect.frame]
    refine ⟨effect.within inHead.within, stands, HeadEnd.openSnoc inHead.noBlank fun closed => ?_,
      noBody.trans inHead.noBody, effect.told (inHead.told.append inHead.within [b])⟩
    exact other ((HeadEnd.closedSnoc text b).mp closed).1
  | line judged acts =>
    rename_i f
    rw [judged] at effect
    obtain ⟨lf, start, _, blank⟩ := headerStop inHead.stands judged
    have meaning : LineMeaning f e := by simpa only [acts] using lineMeaning hash limits f (text ++ [b])
    have field : e.field = .start := by rw [meaning.frame]; exact start
    have noBody : e.bodyRead = d.bodyRead := by rw [meaning.frame, effect.frame]
    refine ⟨meaning.within (effect.within inHead.within), ?_,
      HeadEnd.openSnoc inHead.noBlank fun closed => ?_, noBody.trans inHead.noBody, ?_⟩
    · rw [field]
      exact (HeadEnd.endsInLf text b).mpr lf
    · have isBlank := blank.mpr closed
      contradiction
    · exact applyTold (effect.told (inHead.told.append inHead.within [b])) acts

theorem headSteady (hash : Bytes → Nat) (limits : Limits) : Steady (headByte hash limits) InHead where
  alike alike inHead := by
    rw [alike.eqParked]
    exact ⟨inHead.within.parked _, inHead.stands, inHead.noBlank, inHead.noBody,
      inHead.told⟩
  blind b alike _ := by
    rw [alike.eqParked]
    exact headBlind hash limits _ _ _ b _
  stable b rest inHead := headStable inHead hash limits b rest
  next := InHead.next

theorem InHead.stop {hash : Bytes → Nat} {limits : Limits} {text : Bytes} {d e : Draft} {b : UInt8} (inHead : InHead d text)
    (stopped : headByte hash limits (text ++ [b]) d text.length b = .stop e ()) :
    IsHead (text ++ [b]) ∧ e.cursor = (text ++ [b]).length ∧ e.Within (text ++ [b]).length ∧
      e.bodyRead = 0 ∧ LengthTold e (text ++ [b]) := by
  have step := headStep hash limits (text ++ [b]) d text.length b
  have effect := headerEffect (text ++ [b]) d text.length b
  rw [stopped] at step
  cases step with
  | blank judged =>
    rw [judged] at effect
    obtain ⟨_, _, cursor, blank⟩ := headerStop inHead.stands judged
    have noBody : e.bodyRead = d.bodyRead := by rw [effect.frame]
    exact ⟨HeadEnd.headSnoc inHead.noBlank (blank.mp rfl), cursor, effect.within inHead.within,
      noBody.trans inHead.noBody, effect.told (inHead.told.append inHead.within [b])⟩

theorem headRefuse {hash : Bytes → Nat} {limits : Limits} {buffer : Bytes} {d e : Draft} {position : Nat} {b : UInt8} {fault : Fault}
    (refused : headByte hash limits buffer d position b = .refuse e fault) : fault ∈ headerFaults := by
  have step := headStep hash limits buffer d position b
  rw [refused] at step
  cases step with
  | refusedLine judged acts => exact applyFault acts
  | refused judged =>
    rw [(headerRefuse judged).2]
    decide

variable {hash : Bytes → Nat} {limits : Limits} {held : Bytes} {d e : Draft}

structure Aside (d e : Draft) : Prop where
  version : e.version = d.version
  method : e.method = d.method
  bodyRead : e.bodyRead = d.bodyRead

theorem HeaderEffect.aside {start : Draft} {position : Nat} (effect : HeaderEffect held d position e)
    (aside : start.Aside d) : start.Aside e := by
  rw [effect.frame]
  exact ⟨aside.version, aside.method, aside.bodyRead⟩

theorem LineMeaning.aside {start : Draft} (meaning : LineMeaning d e) (aside : start.Aside d) : start.Aside e := by
  rw [meaning.frame]
  exact ⟨aside.version, aside.method, aside.bodyRead⟩

theorem headAside (hash : Bytes → Nat) (limits : Limits) (held : Bytes) {start : Draft} (position : Nat) (b : UInt8) (aside : start.Aside d) :
    (headByte hash limits held d position b).Leaves start.Aside := by
  have step := headStep hash limits held d position b
  have effect := headerEffect held d position b
  generalize headByte hash limits held d position b = verdict at step
  cases step with
  | inside judged | blank judged | refused judged =>
    rw [judged] at effect
    exact effect.aside aside
  | @line f g judged acts =>
    rw [judged] at effect
    have meaning : LineMeaning f g := by simpa only [acts] using lineMeaning hash limits f held
    exact meaning.aside (effect.aside aside)
  | @refusedLine f g fault judged acts =>
    rw [judged] at effect
    have meaning : LineMeaning f g := by simpa only [acts] using lineMeaning hash limits f held
    exact meaning.aside (effect.aside aside)

theorem readHeadersAside {outcome : Outcome Unit} (read : d.readHeaders hash limits held = (e, outcome)) : d.Aside e := by
  have kept : d.Aside (d.readHeaders hash limits held).1 :=
    scanLeaves (fun _ aside => ⟨aside.version, aside.method, aside.bodyRead⟩) (headAside hash limits held)
      ⟨rfl, rfl, rfl⟩ d.cursor (held.drop d.cursor)
  rwa [read] at kept

end StaticHttp.Draft
