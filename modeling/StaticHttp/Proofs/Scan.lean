import StaticHttp.Draft
/-! Reading in pieces. A reader goes over its bytes one at a time, so what it
makes of a buffer is what it makes of the front of the buffer, continued over the
rest. Two things could spoil this and are ruled out for each reader: a byte that
is judged by bytes behind it, and a byte that is judged by the cursor. The cursor
alone remembers where a call began, and only a refused draft shows it. -/
namespace StaticHttp

namespace Draft

def parked (d : Draft) (position : Nat) : Draft := { d with cursor := position }

@[simp] theorem parkedLine (d : Draft) (position : Nat) : (d.parked position).line = d.line := rfl

@[simp] theorem parkedField (d : Draft) (position : Nat) : (d.parked position).field = d.field := rfl

@[simp] theorem parkedMark (d : Draft) (position : Nat) : (d.parked position).mark = d.mark := rfl

@[simp] theorem parkedVersion (d : Draft) (position : Nat) : (d.parked position).version = d.version :=
  rfl

def Alike (d e : Draft) : Prop := d.parked 0 = e.parked 0

theorem Alike.parked {d e : Draft} (alike : d.Alike e) (position : Nat) :
    d.parked position = e.parked position := by
  have same := congrArg (Draft.parked · position) (show d.parked 0 = e.parked 0 from alike)
  exact same

theorem Alike.eqParked {d e : Draft} (alike : d.Alike e) : e = d.parked e.cursor :=
  (alike.parked e.cursor).symm

theorem alikeParked (d : Draft) (position : Nat) : d.Alike (d.parked position) := rfl

end Draft

namespace Verdict
variable {α : Type}

inductive Alike : Verdict α → Verdict α → Prop where
  | next {d e : Draft} (alike : d.Alike e) : Alike (.next d) (.next e)
  | stop (d : Draft) (result : α) : Alike (.stop d result) (.stop d result)
  | refuse {d e : Draft} (alike : d.Alike e) (fault : Fault) : Alike (.refuse d fault) (.refuse e fault)

def parked (position : Nat) : Verdict α → Verdict α
  | next d => next (d.parked position)
  | stop d result => stop d result
  | refuse d fault => refuse (d.parked position) fault

theorem alikeParked (v : Verdict α) (position : Nat) : v.Alike (v.parked position) := by
  cases v with
  | next d => exact .next (d.alikeParked position)
  | stop d result => exact .stop d result
  | refuse d fault => exact .refuse (d.alikeParked position) fault

def Leaves (holds : Draft → Prop) : Verdict α → Prop
  | next d => holds d
  | stop d _ => holds d
  | refuse d _ => holds d

theorem leavesMono {holds other : Draft → Prop} {v : Verdict α} (leaves : v.Leaves holds)
    (weaker : ∀ d, holds d → other d) : v.Leaves other := by
  cases v with
  | next d => exact weaker d leaves
  | stop d result => exact weaker d leaves
  | refuse d fault => exact weaker d leaves

end Verdict

namespace Draft
variable {α : Type}

theorem scanLeaves {step : Draft → Nat → UInt8 → Verdict α} {holds : Draft → Prop}
    (parks : ∀ {d : Draft} (position : Nat), holds d → holds (d.parked position))
    (leaves : ∀ {d : Draft} (position : Nat) (b : UInt8), holds d → (step d position b).Leaves holds) {d : Draft}
    (start : holds d) (position : Nat) (bytes : Bytes) : holds (scan step d position bytes).1 := by
  induction bytes generalizing d position with
  | nil => exact parks position start
  | cons b rest ih =>
    have left := leaves position b start
    simp only [scan]
    cases judged : step d position b with
    | next e =>
      rw [judged] at left
      exact ih left (position + 1)
    | stop e result =>
      rw [judged] at left
      exact left
    | refuse e fault =>
      rw [judged] at left
      exact left

theorem scanFailed {step : Draft → Nat → UInt8 → Verdict α}
    (keeps : ∀ d position b, step d position b = (step d position b).parked d.cursor) {d e : Draft} {fault : Fault}
    {position : Nat} {bytes : Bytes} (scanned : scan step d position bytes = (e, .failed fault)) : e.cursor = d.cursor := by
  induction bytes generalizing d position with
  | nil => simp [scan] at scanned
  | cons b rest ih =>
    have kept := keeps d position b
    cases judged : step d position b with
    | next f =>
      simp only [judged, Verdict.parked, Verdict.next.injEq] at kept
      simp only [scan, judged] at scanned
      rw [ih scanned, kept]
      rfl
    | stop f result => simp [scan, judged] at scanned
    | refuse f fault =>
      simp only [judged, Verdict.parked, Verdict.refuse.injEq, and_true] at kept
      simp only [scan, judged, Prod.mk.injEq] at scanned
      rw [← scanned.1, kept]
      rfl

/- Two readings with one outcome, whose drafts differ at most in the cursor, and
not even there unless the reading was refused. -/
structure Agree (x y : Draft × Outcome α) : Prop where
  outcome : x.2 = y.2
  draft : x.1.Alike y.1
  exact : (∀ fault, x.2 ≠ .failed fault) → x.1 = y.1

theorem Agree.refl (x : Draft × Outcome α) : Agree x x := ⟨rfl, rfl, fun _ => rfl⟩

/-- A step that sees the whole buffer but judges a byte by the bytes up to it.
What is `known` of a draft follows from the text it has come out of. -/
structure Steady (step : Bytes → Draft → Nat → UInt8 → Verdict α) (known : Draft → Bytes → Prop) :
    Prop where
  alike {d e : Draft} {text : Bytes} : d.Alike e → known d text → known e text
  blind {d e : Draft} {text : Bytes} (b : UInt8) : d.Alike e → known d text →
    (step (text ++ [b]) d text.length b).Alike (step (text ++ [b]) e text.length b)
  stable {d : Draft} {text : Bytes} (b : UInt8) (rest : Bytes) : known d text →
    step (text ++ [b] ++ rest) d text.length b = step (text ++ [b]) d text.length b
  next {d e : Draft} {text : Bytes} {b : UInt8} : known d text →
    step (text ++ [b]) d text.length b = .next e → known e (text ++ [b])

variable {step : Bytes → Draft → Nat → UInt8 → Verdict α} {known : Draft → Bytes → Prop}

theorem Steady.sharpen {told : Draft → Bytes → Prop} (steady : Steady step known)
    (alike : ∀ {d e : Draft} {text : Bytes}, d.Alike e → told d text → told e text)
    (next : ∀ {d e : Draft} {text : Bytes} {b : UInt8}, known d text → told d text →
      step (text ++ [b]) d text.length b = .next e → told e (text ++ [b])) :
    Steady step fun d text => known d text ∧ told d text where
  alike same both := ⟨steady.alike same both.1, alike same both.2⟩
  blind b same both := steady.blind b same both.1
  stable b rest both := steady.stable b rest both.1
  next both judged := ⟨steady.next both.1 judged, next both.1 both.2 judged⟩

def walk (step : Bytes → Draft → Nat → UInt8 → Verdict α) (d : Draft) (text bytes : Bytes) :
    Draft × Outcome α :=
  scan (step (text ++ bytes)) d text.length bytes

theorem walkNil (d : Draft) (text : Bytes) : walk step d text [] = (d.parked text.length, .more) := rfl

theorem walkCons (steady : Steady step known) {d : Draft} {text : Bytes} (origin : known d text)
    (b : UInt8) (rest : Bytes) :
    walk step d text (b :: rest) =
      match step (text ++ [b]) d text.length b with
      | .next e => walk step e (text ++ [b]) rest
      | .stop e result => (e, .found result)
      | .refuse e fault => (e, .failed fault) := by
  have judged := steady.stable b rest origin
  rw [List.append_assoc, List.singleton_append] at judged
  simp only [walk, scan, judged]
  cases step (text ++ [b]) d text.length b <;> simp

theorem resumeWalk {d : Draft} {buffer : Bytes} (inside : d.cursor ≤ buffer.length) :
    d.resume (step buffer) buffer = walk step d (buffer.take d.cursor) (buffer.drop d.cursor) := by
  simp [resume, walk, Nat.min_eq_left inside]

theorem walkMore (steady : Steady step known) {d e : Draft} {text bytes : Bytes} (origin : known d text)
    (walked : walk step d text bytes = (e, .more)) :
    ∃ f : Draft, e = f.parked (text ++ bytes).length ∧ known f (text ++ bytes) ∧
      ∀ rest, walk step d text (bytes ++ rest) = walk step f (text ++ bytes) rest := by
  -- The draft and the text it came out of go along; what is known of the two carries the step.
  induction bytes generalizing d text with
  | nil =>
    simp only [walkNil, Prod.mk.injEq, and_true] at walked
    exact ⟨d, by simpa using walked.symm, by simpa using origin, by simp⟩
  | cons b bytes ih =>
    rw [walkCons steady origin] at walked
    cases judged : step (text ++ [b]) d text.length b with
    | next next =>
      simp only [judged] at walked
      obtain ⟨f, parked, known, onward⟩ := ih (steady.next origin judged) walked
      refine ⟨f, by simpa using parked, by simpa using known, fun rest => ?_⟩
      rw [List.cons_append, walkCons steady origin, judged]
      simpa using onward rest
    | stop _ _ => simp [judged] at walked
    | refuse _ _ => simp [judged] at walked

theorem walkEnded (steady : Steady step known) {d : Draft} {text bytes : Bytes} (origin : known d text)
    (ended : (walk step d text bytes).2 ≠ .more) (rest : Bytes) :
    walk step d text (bytes ++ rest) = walk step d text bytes := by
  induction bytes generalizing d text with
  | nil => exact absurd rfl ended
  | cons b bytes ih =>
    rw [List.cons_append, walkCons steady origin, walkCons steady origin]
    rw [walkCons steady origin] at ended
    cases judged : step (text ++ [b]) d text.length b with
    | next next =>
      simp only [judged] at ended ⊢
      exact ih (steady.next origin judged) ended
    | stop _ _ => rfl
    | refuse _ _ => rfl

inductive Halt (step : Bytes → Draft → Nat → UInt8 → Verdict α) (f : Draft) (text : Bytes) :
    Bytes → Draft × Outcome α → Prop where
  | more : Halt step f text [] (f.parked text.length, .more)
  | found {e : Draft} {b : UInt8} {result : α} (after : Bytes)
      (stopped : step (text ++ [b]) f text.length b = .stop e result) : Halt step f text (b :: after) (e, .found result)
  | failed {e : Draft} {b : UInt8} {fault : Fault} (after : Bytes)
      (refused : step (text ++ [b]) f text.length b = .refuse e fault) : Halt step f text (b :: after) (e, .failed fault)

theorem Halt.noNext {f e : Draft} {text after : Bytes} {b : UInt8} {ended : Draft × Outcome α}
    (halt : Halt step f text (b :: after) ended) : step (text ++ [b]) f text.length b ≠ .next e := by
  cases halt with
  | found _ stopped => simp [stopped]
  | failed _ refused => simp [refused]

theorem walkHalts (steady : Steady step known) {d : Draft} {text : Bytes} (origin : known d text) (bytes : Bytes) :
    ∃ (f : Draft) (before after : Bytes), bytes = before ++ after ∧ known f (text ++ before) ∧
      Halt step f (text ++ before) after (walk step d text bytes) := by
  induction bytes generalizing d text with
  | nil => exact ⟨d, [], [], rfl, by simpa using origin, by simpa using .more⟩
  | cons b bytes ih =>
    rw [walkCons steady origin]
    cases judged : step (text ++ [b]) d text.length b with
    | next next =>
      obtain ⟨f, before, after, parts, known, halt⟩ := ih (steady.next origin judged)
      exact ⟨f, b :: before, after, by simp [parts], by simpa using known, by simpa using halt⟩
    | stop e result =>
      exact ⟨d, [], b :: bytes, rfl, by simpa using origin, .found bytes (by simpa using judged)⟩
    | refuse e fault =>
      exact ⟨d, [], b :: bytes, rfl, by simpa using origin, .failed bytes (by simpa using judged)⟩

theorem walkAgree (steady : Steady step known) {d e : Draft} {text : Bytes} (alike : d.Alike e)
    (origin : known d text) (bytes : Bytes) : Agree (walk step d text bytes) (walk step e text bytes) := by
  induction bytes generalizing d e text with
  | nil =>
    have same := alike.parked text.length
    rw [walkNil, walkNil, same]
    exact .refl _
  | cons b bytes ih =>
    have judged := steady.blind b alike origin
    rw [walkCons steady origin, walkCons steady (steady.alike alike origin)]
    cases left : step (text ++ [b]) d text.length b <;>
      cases right : step (text ++ [b]) e text.length b <;> rw [left, right] at judged <;> cases judged
    case next.next => exact ih (by assumption) (steady.next origin left)
    case stop.stop => exact .refl _
    case refuse.refuse _ fault _ drafts => exact ⟨rfl, drafts, fun accepted => absurd rfl (accepted fault)⟩

theorem resumeMore (steady : Steady step known) {d e : Draft} {buffer : Bytes}
    (inside : d.cursor ≤ buffer.length) (origin : known d (buffer.take d.cursor))
    (read : d.resume (step buffer) buffer = (e, .more)) :
    e.cursor = buffer.length ∧ known e buffer ∧
      ∀ rest, Agree (d.resume (step (buffer ++ rest)) (buffer ++ rest))
        (e.resume (step (buffer ++ rest)) (buffer ++ rest)) := by
  rw [resumeWalk inside] at read
  obtain ⟨f, parked, known, onward⟩ := walkMore steady origin read
  rw [List.take_append_drop] at parked known onward
  have cursor : e.cursor = buffer.length := by rw [parked]; rfl
  have alike : f.Alike e := by rw [parked]; exact f.alikeParked _
  refine ⟨cursor, steady.alike alike known, fun rest => ?_⟩
  rw [resumeWalk (by simp; omega), resumeWalk (by simp [cursor]), cursor,
    List.take_append_of_le_length inside, List.drop_append_of_le_length inside, onward]
  simpa using walkAgree steady alike known rest

theorem resumeEnded (steady : Steady step known) {d : Draft} {buffer : Bytes}
    (inside : d.cursor ≤ buffer.length) (origin : known d (buffer.take d.cursor))
    (ended : (d.resume (step buffer) buffer).2 ≠ .more) (rest : Bytes) :
    d.resume (step (buffer ++ rest)) (buffer ++ rest) = d.resume (step buffer) buffer := by
  rw [resumeWalk inside] at ended ⊢
  rw [resumeWalk (by simp; omega), List.take_append_of_le_length inside,
    List.drop_append_of_le_length inside]
  exact walkEnded steady origin ended rest

theorem resumeHalts (steady : Steady step known) {d : Draft} {buffer : Bytes} (inside : d.cursor ≤ buffer.length)
    (origin : known d (buffer.take d.cursor)) :
    ∃ (f : Draft) (text after : Bytes), buffer = text ++ after ∧ known f text ∧
      Halt step f text after (d.resume (step buffer) buffer) := by
  rw [resumeWalk inside]
  obtain ⟨f, before, after, parts, known, halt⟩ := walkHalts steady origin (buffer.drop d.cursor)
  refine ⟨f, _, after, ?_, known, halt⟩
  rw [List.append_assoc, ← parts, List.take_append_drop]

theorem resumeFound (steady : Steady step known) {d e : Draft} {buffer : Bytes} {result : α}
    (inside : d.cursor ≤ buffer.length) (origin : known d (buffer.take d.cursor))
    (read : d.resume (step buffer) buffer = (e, .found result)) :
    ∃ (f : Draft) (text : Bytes) (b : UInt8) (after : Bytes), buffer = text ++ b :: after ∧
      known f text ∧ step (text ++ [b]) f text.length b = .stop e result := by
  obtain ⟨f, text, after, parts, known, halt⟩ := resumeHalts steady inside origin
  rw [read] at halt
  cases halt with
  | found after stopped => exact ⟨f, text, _, after, parts, known, stopped⟩

theorem resumeFailed (steady : Steady step known) {d e : Draft} {buffer : Bytes} {fault : Fault}
    (inside : d.cursor ≤ buffer.length) (origin : known d (buffer.take d.cursor))
    (read : d.resume (step buffer) buffer = (e, .failed fault)) :
    ∃ (f : Draft) (text : Bytes) (b : UInt8), known f text ∧
      step (text ++ [b]) f text.length b = .refuse e fault := by
  obtain ⟨f, text, after, _, known, halt⟩ := resumeHalts steady inside origin
  rw [read] at halt
  cases halt with
  | failed after refused => exact ⟨f, text, _, known, refused⟩

end Draft
end StaticHttp
