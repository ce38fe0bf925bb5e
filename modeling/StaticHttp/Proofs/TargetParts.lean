import StaticHttp.Proofs.RequestLine
import StaticHttp.Proofs.TargetText
/-! The parts of a target as texts: each is a stretch of the target, the path up to the
first question mark, the query behind it, the extension behind the last dot of the path.
A span that wraps round the end of the words ends before it begins, and is no target. -/
namespace StaticHttp

namespace Span
variable {s : Span} {buffer bytes : Bytes}

theorem sliceExact (word : buffer.length < Word.size) (startWord : s.start < Word.size) (lenWord : s.len < Word.size) :
    s.slice? buffer = some bytes ↔
      s.start + s.len ≤ buffer.length ∧ bytes = (buffer.drop s.start).take s.len := by
  constructor
  · intro sliced
    obtain ⟨ordered, upper, _⟩ := sliceSomeIff.mp sliced
    have fits : s.start + s.len < Word.size := by
      refine Nat.lt_of_not_le fun wraps => ?_
      have round : s.stop = s.start + s.len - Word.size := by
        rw [stop, Word.add, Nat.mod_eq_sub_mod wraps, Nat.mod_eq_of_lt (by omega)]
      omega
    have stop : s.stop = s.start + s.len := Word.addFits fits
    have inside : s.start + s.len ≤ buffer.length := stop ▸ upper
    exact ⟨inside, Option.some.inj (sliced.symm.trans (sliceInside word inside))⟩
  · rintro ⟨inside, rfl⟩
    exact sliceInside word inside

theorem sliceEnd (sliced : s.slice? buffer = some bytes) {tail : Bytes} (ends : tail <:+ bytes) :
    (⟨s.start + (bytes.length - tail.length), tail.length⟩ : Span).slice? buffer = some tail := by
  have total := sliceLength sliced
  have short := ends.length_le
  have rest := sliceRest sliced (Nat.sub_le bytes.length tail.length)
  have same : range (s.start + (bytes.length - tail.length)) s.stop =
      ⟨s.start + (bytes.length - tail.length), tail.length⟩ := by
    rw [range, Span.mk.injEq]
    omega
  rwa [same, ← List.suffix_iff_eq_drop.mp ends] at rest

end Span

namespace Target

inductive Queried : Bytes → Bytes → Bytes → Prop where
  | bare {path : Bytes} (plain : Byte.question ∉ path) : Queried path path []
  | query {path : Bytes} (plain : Byte.question ∉ path) (query : Bytes) :
      Queried (path ++ Byte.question :: query) path query

theorem Queried.longest {bytes path query front : Bytes} (queried : Queried bytes path query) (inside : front <+: bytes)
    (plain : Byte.question ∉ front) : front <+: path := by
  cases queried with
  | bare => exact inside
  | query =>
    rcases List.prefix_or_prefix_of_prefix inside (List.prefix_append path (Byte.question :: query)) with short | long
    · exact short
    · obtain ⟨more, rfl⟩ := long
      cases more with
      | nil => exact ⟨[], by simp⟩
      | cons b more =>
        rw [List.prefix_append_right_inj, List.cons_prefix_cons] at inside
        exact absurd (by simp [inside.1]) plain

inductive Extended : Bytes → Bytes → Prop where
  | dotted (front : Bytes) {extension : Bytes} (dotless : Byte.dot ∉ extension) (single : Byte.slash ∉ extension) :
      Extended (front ++ Byte.dot :: extension) extension
  | plain {path : Bytes} (closed : ∀ front rest, path = front ++ Byte.dot :: rest → Byte.slash ∈ rest) :
      Extended path []

inductive Marked : Bytes → Option (Nat × Bool) → Prop where
  | none {bytes : Bytes} (dotless : Byte.dot ∉ bytes) (single : Byte.slash ∉ bytes) : Marked bytes none
  | dot (front : Bytes) {rest : Bytes} (dotless : Byte.dot ∉ rest) (single : Byte.slash ∉ rest) :
      Marked (front ++ Byte.dot :: rest) (some (front.length, true))
  | slash (front : Bytes) {rest : Bytes} (dotless : Byte.dot ∉ rest) (single : Byte.slash ∉ rest) :
      Marked (front ++ Byte.slash :: rest) (some (front.length, false))

theorem lastMarked (bytes : Bytes) : Marked bytes (lastMark bytes) := by
  induction bytes with
  | nil => exact .none List.not_mem_nil List.not_mem_nil
  | cons b rest ih =>
    simp only [lastMark]
    generalize lastMark rest = mark at ih
    cases ih with
    | dot front dotless single => exact .dot (b :: front) dotless single
    | slash front dotless single => exact .slash (b :: front) dotless single
    | none dotless single =>
      simp only
      by_cases dot : b = Byte.dot
      · rw [if_pos dot, dot]
        exact .dot [] dotless single
      · rw [if_neg dot]
        by_cases slash : b = Byte.slash
        · rw [if_pos slash, slash]
          exact .slash [] dotless single
        · rw [if_neg slash]
          refine .none ?_ ?_
          · exact List.not_mem_cons_of_ne_of_not_mem (Ne.symm dot) dotless
          · exact List.not_mem_cons_of_ne_of_not_mem (Ne.symm slash) single

theorem closedBySlash {front rest : Bytes} (dotless : Byte.dot ∉ rest) {before behind : Bytes}
    (parts : front ++ Byte.slash :: rest = before ++ Byte.dot :: behind) : Byte.slash ∈ behind := by
  rcases List.append_eq_append_iff.mp parts with ⟨others, rfl, rest'⟩ | ⟨others, rfl, behind'⟩
  · cases others with
    | nil =>
      rw [List.nil_append, List.cons.injEq] at rest'
      exact absurd rest'.1 (by decide)
    | cons b others =>
      rw [List.cons_append, List.cons.injEq] at rest'
      exact absurd (rest'.2 ▸ by simp) dotless
  · cases others with
    | nil =>
      rw [List.nil_append, List.cons.injEq] at behind'
      exact absurd behind'.1 (by decide)
    | cons b others =>
      rw [List.cons_append, List.cons.injEq] at behind'
      rw [behind'.2]
      simp

theorem extensionAtEnd (start : Nat) (path : Bytes)
    (stop : (⟨start, path.length⟩ : Span).stop = start + path.length) :
    ∃ extension, Extended path extension ∧ extension <:+ path ∧
      extensionOf ⟨start, path.length⟩ path = ⟨start + (path.length - extension.length), extension.length⟩ := by
  have marked := lastMarked path
  unfold extensionOf
  generalize lastMark path = mark at marked ⊢
  cases marked with
  | none dotless single =>
    exact ⟨[], .plain fun front rest parts => absurd (by simp [parts]) dotless, List.nil_suffix,
      by rw [stop]; rfl⟩
  | slash front dotless single =>
    exact ⟨[], .plain fun _ _ parts => closedBySlash dotless parts, List.nil_suffix, by rw [stop]; rfl⟩
  | @dot front extension dotless single =>
    refine ⟨extension, .dotted front dotless single, ⟨front ++ [Byte.dot], by simp⟩, ?_⟩
    simp only [stop, Span.range, Span.mk.injEq]
    simp only [List.length_append, List.length_cons]
    omega

theorem firstOfBehind {b : UInt8} {front : Bytes} (plain : b ∉ front) (rest : Bytes) :
    firstOf b (front ++ b :: rest) = some front.length := by
  have before : front.findIdx? (· == b) = none :=
    List.findIdx?_eq_none_iff.mpr fun c inside => beq_eq_false_iff_ne.mpr fun same => plain (same ▸ inside)
  simp [firstOf, List.findIdx?_append, List.findIdx?_cons, before]

theorem firstOfNone {b : UInt8} {bytes : Bytes} (plain : b ∉ bytes) : firstOf b bytes = none :=
  List.findIdx?_eq_none_iff.mpr fun _ inside => beq_eq_false_iff_ne.mpr fun same => plain (same ▸ inside)

theorem queryAtEnd {whole : Span} {bytes : Bytes} (len : bytes.length = whole.len)
    (stop : whole.stop = whole.start + whole.len) :
    ∃ path query, Queried bytes path query ∧ path <+: bytes ∧ query <:+ bytes ∧
      pathOf whole bytes = ⟨whole.start, path.length⟩ ∧
      queryOf whole bytes = ⟨whole.start + (bytes.length - query.length), query.length⟩ := by
  unfold pathOf queryOf
  by_cases asked : Byte.question ∈ bytes
  · obtain ⟨path, query, rfl, plain⟩ := List.eq_append_cons_of_mem asked
    rw [firstOfBehind plain]
    refine ⟨path, query, .query plain query, List.prefix_append _ _, ⟨path ++ [Byte.question], by simp⟩, rfl, ?_⟩
    simp only [stop, ← len, Span.range, Span.mk.injEq, List.length_append, List.length_cons]
    omega
  · rw [firstOfNone asked]
    exact ⟨bytes, [], .bare asked, List.prefix_refl _, List.nil_suffix, by rw [len], by simp [stop, len, Span.emptyAt]⟩

structure Partition (buffer : Bytes) (whole : Span) (t : Target) (path query extension : Bytes) : Prop where
  same : t.whole = whole
  queried : Queried ((buffer.drop whole.start).take whole.len) path query
  longest : ∀ front, front <+: (buffer.drop whole.start).take whole.len → Byte.question ∉ front → front <+: path
  extended : Extended path extension
  pathSpan : t.path = ⟨whole.start, path.length⟩
  querySpan : t.query = ⟨whole.start + (whole.len - query.length), query.length⟩
  extensionSpan : t.extension = ⟨whole.start + (path.length - extension.length), extension.length⟩
  pathRead : t.path.slice? buffer = some path
  queryRead : t.query.slice? buffer = some query
  extensionRead : t.extension.slice? buffer = some extension
  inside : ∀ s ∈ [t.whole, t.path, t.query, t.extension],
    whole.start ≤ s.start ∧ s.start + s.len ≤ whole.start + whole.len

variable {buffer : Bytes} {whole : Span} {t : Target}

theorem splitOk (parted : split buffer whole = .ok t) :
    ∃ behind, whole.slice? buffer = some (Byte.slash :: behind) ∧ t.whole = whole ∧
      t.path = pathOf whole (Byte.slash :: behind) ∧ t.query = queryOf whole (Byte.slash :: behind) ∧
      t.extension = extensionOf t.path ((t.path.slice? buffer).getD []) := by
  unfold split at parted
  split at parted
  · rename_i first rest sliced
    split at parted
    · rename_i slash
      cases parted
      exact ⟨rest, slash ▸ sliced, rfl, slash ▸ rfl, slash ▸ rfl, rfl⟩
    · contradiction
  · contradiction

theorem partitioned (word : buffer.length < Word.size) (startWord : whole.start < Word.size)
    (lenWord : whole.len < Word.size) (parted : split buffer whole = .ok t) :
    ∃ path query extension, Partition buffer whole t path query extension := by
  obtain ⟨behind, sliced, same, pathNoted, queryNoted, extensionNoted⟩ := splitOk parted
  generalize Byte.slash :: behind = bytes at sliced pathNoted queryNoted
  obtain ⟨inside, text⟩ := (Span.sliceExact word startWord lenWord).mp sliced
  have len : bytes.length = whole.len := by
    rw [text, List.length_take_of_le (by rw [List.length_drop]; omega)]
  have stop : whole.stop = whole.start + whole.len := Word.addFits (by omega)
  obtain ⟨path, query, queried, front, ends, pathSpan, querySpan⟩ := queryAtEnd len stop
  have short := front.length_le
  have pathRead : (⟨whole.start, path.length⟩ : Span).slice? buffer = some path := by
    rw [Span.sliceFront sliced short, ← List.prefix_iff_eq_take.mp front]
  obtain ⟨extension, extended, tail, extensionSpan⟩ :=
    extensionAtEnd whole.start path (Word.addFits (by simp only; omega))
  rw [pathNoted, pathSpan, pathRead, Option.getD_some, extensionSpan] at extensionNoted
  rw [pathSpan] at pathNoted
  rw [querySpan] at queryNoted
  have within := ends.length_le
  have inner := tail.length_le
  rw [text] at queried
  refine ⟨path, query, extension, same, queried, fun _ inside plain => queried.longest inside plain, extended,
    pathNoted, by rw [queryNoted, len], extensionNoted, by rw [pathNoted, pathRead],
    by rw [queryNoted, Span.sliceEnd sliced ends], by rw [extensionNoted]; exact Span.sliceEnd pathRead tail, ?_⟩
  rw [same, pathNoted, queryNoted, extensionNoted]
  simp only [List.forall_mem_cons, List.not_mem_nil, false_implies, implies_true, and_true]
  omega

theorem targetIff (word : buffer.length < Word.size) (startWord : whole.start < Word.size)
    (lenWord : whole.len < Word.size) :
    (∃ t, split buffer whole = .ok t) ↔
      whole.start + whole.len ≤ buffer.length ∧ 0 < whole.len ∧ buffer[whole.start]? = some Byte.slash := by
  constructor
  · rintro ⟨t, parted⟩
    obtain ⟨behind, sliced, _⟩ := splitOk parted
    obtain ⟨inside, text⟩ := (Span.sliceExact word startWord lenWord).mp sliced
    have some : whole.len ≠ 0 := fun none => by simp [none] at text
    have first := congrArg List.head? text
    rw [List.head?_cons, List.head?_take, if_neg some, List.head?_drop] at first
    exact ⟨inside, Nat.pos_of_ne_zero some, first.symm⟩
  · rintro ⟨inside, some, first⟩
    have sliced := (Span.sliceExact word startWord lenWord).mpr ⟨inside, rfl⟩
    rw [← List.head?_drop] at first
    obtain ⟨behind, text⟩ := List.head?_eq_some_iff.mp first
    rw [text, ← Nat.sub_add_cancel some, List.take_succ_cons] at sliced
    unfold split
    rw [sliced]
    exact ⟨_, if_pos rfl⟩

/-- Splitting accepts exactly the spans that lie in the buffer, by exact sums, and begin with a
slash. Then the path, the query and the extension are the parts of the target's text, each noted
where it stands; any other span is an invalid target. -/
theorem targetPartitioned {buffer : Bytes} {whole : Span} (word : buffer.length < Word.size)
    (startWord : whole.start < Word.size) (lenWord : whole.len < Word.size) :
    ((∃ t, split buffer whole = .ok t) ↔
      whole.start + whole.len ≤ buffer.length ∧ 0 < whole.len ∧ buffer[whole.start]? = some Byte.slash) ∧
    (∀ t, split buffer whole = .ok t → ∃ path query extension, Partition buffer whole t path query extension) ∧
    (∀ fault, split buffer whole = .error fault → fault = .invalidUrl) :=
  ⟨targetIff word startWord lenWord, fun _ parted => partitioned word startWord lenWord parted,
    fun _ refused => Draft.splitFault refused⟩

theorem targetPartitionedAmongDots :
    let buffer := ascii "GET /a.d/.b.c?x=./?y HTTP"
    let whole : Span := ⟨4, 16⟩
    let wrapped : Span := ⟨Word.size - 1, 6⟩
    let t : Target := ⟨whole, ⟨4, 9⟩, ⟨14, 6⟩, ⟨12, 1⟩⟩
    split buffer whole = .ok t ∧ Partition buffer whole t (ascii "/a.d/.b.c") (ascii "x=./?y") (ascii "c") ∧
      wrapped.stop = 5 ∧ split buffer wrapped = .error .invalidUrl := by
  intro buffer whole wrapped t
  have words : buffer.length < Word.size ∧ whole.start < Word.size ∧ whole.len < Word.size ∧
      wrapped.start < Word.size ∧ wrapped.len < Word.size := by decide +kernel
  obtain ⟨bufferWord, startWord, lenWord, wrappedStart, wrappedLen⟩ := words
  obtain ⟨_, parts, _⟩ := targetPartitioned bufferWord startWord lenWord
  obtain ⟨taken, _, faults⟩ := targetPartitioned bufferWord wrappedStart wrappedLen
  have parted : split buffer whole = .ok t := rfl
  obtain ⟨path, query, extension, partition⟩ := parts t parted
  have pathText : t.path.slice? buffer = some (ascii "/a.d/.b.c") := by decide +kernel
  have queryText : t.query.slice? buffer = some (ascii "x=./?y") := by decide +kernel
  have extensionText : t.extension.slice? buffer = some (ascii "c") := by decide +kernel
  obtain rfl := Option.some.inj (partition.pathRead.symm.trans pathText)
  obtain rfl := Option.some.inj (partition.queryRead.symm.trans queryText)
  obtain rfl := Option.some.inj (partition.extensionRead.symm.trans extensionText)
  refine ⟨parted, partition, by decide +kernel, ?_⟩
  cases wrapping : split buffer wrapped with
  | error fault => rw [faults fault wrapping]
  | ok t => exact absurd (taken.mp ⟨t, wrapping⟩).1 (by decide +kernel)

end Target
end StaticHttp
