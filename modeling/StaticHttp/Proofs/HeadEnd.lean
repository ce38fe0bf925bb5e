import StaticHttp.Bytes
/-! Where a head ends, told from the text alone: at the first line end that has
another one right behind it. A line ends with LF, a CR before it counts as part
of the line end. No reader is mentioned here. -/
namespace StaticHttp.HeadEnd

def Closed (text : Bytes) : Prop :=
  [Byte.lf, Byte.lf] <:+ text ∨ [Byte.lf, Byte.cr, Byte.lf] <:+ text

instance (text) : Decidable (Closed text) := by unfold Closed; infer_instance

def Open (text : Bytes) : Prop := ∀ before, before <+: text → ¬ Closed before

structure IsHead (head : Bytes) : Prop where
  closed : Closed head
  first : ∀ before, before <+: head → Closed before → before = head

instance (head) : Decidable (IsHead head) := by
  have firstTaken : (∀ n ≤ head.length, Closed (head.take n) → head.take n = head) ↔
      ∀ before, before <+: head → Closed before → before = head := by
    refine ⟨fun taken before inside closed => ?_, fun first n _ => first _ (List.take_prefix n head)⟩
    rw [List.prefix_iff_eq_take.mp inside] at closed ⊢
    exact taken before.length inside.length_le closed
  exact decidable_of_iff (Closed head ∧ ∀ n ≤ head.length, Closed (head.take n) → head.take n = head)
    ⟨fun ⟨closed, taken⟩ => ⟨closed, firstTaken.mp taken⟩, fun h => ⟨h.closed, firstTaken.mpr h.first⟩⟩

theorem suffixSnoc {α : Type} (ending text : List α) (a b : α) :
    ending ++ [a] <:+ text ++ [b] ↔ a = b ∧ ending <:+ text := by
  rw [List.suffix_concat_iff]
  constructor
  · rintro (empty | ⟨t, same, suffix⟩)
    · simp at empty
    · obtain ⟨rfl, last⟩ := List.append_inj' same rfl
      exact ⟨by simpa using last, suffix⟩
  · rintro ⟨rfl, suffix⟩
    exact .inr ⟨ending, rfl, suffix⟩

theorem endsInLf (text : Bytes) (b : UInt8) : [Byte.lf] <:+ text ++ [b] ↔ b = Byte.lf := by
  rw [List.singleton_suffix_append_singleton_iff, eq_comm]

theorem endsInLfCr (text : Bytes) (b : UInt8) :
    [Byte.lf, Byte.cr] <:+ text ++ [b] ↔ b = Byte.cr ∧ [Byte.lf] <:+ text := by
  simpa [eq_comm] using suffixSnoc [Byte.lf] text Byte.cr b

theorem closedSnoc (text : Bytes) (b : UInt8) :
    Closed (text ++ [b]) ↔ b = Byte.lf ∧ ([Byte.lf] <:+ text ∨ [Byte.lf, Byte.cr] <:+ text) := by
  have short := suffixSnoc [Byte.lf] text Byte.lf b
  have long := suffixSnoc [Byte.lf, Byte.cr] text Byte.lf b
  simp only [List.cons_append, List.nil_append] at short long
  rw [Closed, short, long, ← and_or_left, eq_comm]

theorem openNil : Open [] := by
  intro before inside
  rw [List.prefix_nil.mp inside]
  decide

theorem openSnoc {text : Bytes} {b : UInt8} (noBlank : Open text) (further : ¬ Closed (text ++ [b])) :
    Open (text ++ [b]) := by
  intro before inside
  rcases List.prefix_concat_iff.mp inside with rfl | earlier
  · exact further
  · exact noBlank before earlier

theorem headSnoc {text : Bytes} {b : UInt8} (noBlank : Open text) (closed : Closed (text ++ [b])) :
    IsHead (text ++ [b]) := by
  refine ⟨closed, fun before inside ends => ?_⟩
  rcases List.prefix_concat_iff.mp inside with same | earlier
  · exact same
  · exact absurd ends (noBlank before earlier)

theorem closedLf {text : Bytes} (closed : Closed text) : Byte.lf ∈ text := by
  rcases closed with two | three
  · exact two.subset (by simp)
  · exact three.subset (by simp)

theorem openUnbroken {line : Bytes} (oneLine : Byte.lf ∉ line) : Open line :=
  fun _ earlier closed => oneLine (earlier.subset (closedLf closed))

theorem openLine {line : Bytes} (oneLine : Byte.lf ∉ line) : Open (line ++ [Byte.lf]) := by
  refine openSnoc (openUnbroken oneLine) fun closed => ?_
  rcases ((closedSnoc line Byte.lf).mp closed).2 with lf | cr
  · exact oneLine (lf.subset (by simp))
  · exact oneLine (cr.subset (by simp))

theorem headUnique {head other text : Bytes} (isHead : IsHead head) (isOther : IsHead other)
    (inside : head <+: text) (otherInside : other <+: text) : head = other := by
  rcases List.prefix_or_prefix_of_prefix inside otherInside with shorter | longer
  · exact isOther.first head shorter isHead.closed
  · exact (isHead.first other longer isOther.closed).symm

end StaticHttp.HeadEnd
