import StaticHttp.Draft.Headers
import StaticHttp.Proofs.Scan
/-! How far the spans of a draft reach into the bytes read so far. A span that
ends inside a buffer names the same bytes after the buffer has grown, so nothing
that is decided by such spans changes when more bytes arrive. -/
namespace StaticHttp

namespace Span

/- The end of the span as a number, which `stop` is only up to wrapping. -/
def reach (s : Span) : Nat := s.start + s.len

theorem stopLeReach (s : Span) : s.stop ≤ s.reach := Nat.mod_le _ _

theorem sliceAppend {s : Span} {buffer : Bytes} (inside : s.reach ≤ buffer.length) (more : Bytes) :
    s.slice? (buffer ++ more) = s.slice? buffer := by
  have stop : s.stop ≤ buffer.length := Nat.le_trans s.stopLeReach inside
  unfold slice?
  by_cases ordered : s.start ≤ s.stop
  · rw [if_pos ⟨ordered, by simp; omega⟩, if_pos ⟨ordered, stop⟩,
      List.drop_append_of_le_length (by omega), List.take_append_of_le_length (by simp; omega)]
  · rw [if_neg fun both => ordered both.1, if_neg fun both => ordered both.1]

theorem sliceLength {s : Span} {buffer bytes : Bytes} (sliced : s.slice? buffer = some bytes) :
    s.start + bytes.length = s.stop := by
  obtain ⟨lower, upper, rfl⟩ := sliceSomeIff.mp sliced
  simp
  omega

theorem reachRange {start stop n : Nat} (lower : start ≤ n) (upper : stop ≤ n) :
    (range start stop).reach ≤ n := by
  simp only [range, reach]
  omega

theorem reachTrimRight (s : Span) (buffer : Bytes) : (s.trimRight buffer).reach ≤ s.reach := by
  unfold trimRight
  split
  · rename_i bytes sliced
    have total := sliceLength sliced
    have stop := s.stopLeReach
    have kept : bytes.trimRight.length ≤ bytes.length := by
      have dropped := (List.dropWhile_sublist (l := bytes.reverse) Byte.isBlank).length_le
      simpa [Bytes.trimRight] using dropped
    simp only [reach] at stop ⊢
    omega
  · exact Nat.le_refl _

theorem trimRightAppend {s : Span} {buffer : Bytes} (inside : s.reach ≤ buffer.length) (more : Bytes) :
    s.trimRight (buffer ++ more) = s.trimRight buffer := by
  unfold trimRight
  rw [sliceAppend inside]

end Span

namespace Target

theorem firstOfInside {b : UInt8} {bytes : Bytes} {i : Nat} (found : firstOf b bytes = some i) :
    i < bytes.length :=
  (List.findIdx?_eq_some_iff_getElem.mp found).1

theorem lastMarkInside {bytes : Bytes} {i : Nat} {isDot : Bool} (found : lastMark bytes = some (i, isDot)) :
    i < bytes.length := by
  induction bytes generalizing i isDot with
  | nil => simp [lastMark] at found
  | cons b rest ih =>
    simp only [lastMark] at found
    split at found
    · rename_i j dot last
      cases Option.some.inj found
      simpa using ih last
    · split at found
      · cases Option.some.inj found
        simp
      · split at found <;> cases found
        simp

structure Within (t : Target) (n : Nat) : Prop where
  whole : t.whole.reach ≤ n
  path : t.path.reach ≤ n
  query : t.query.reach ≤ n
  extension : t.extension.reach ≤ n

theorem Within.mono {t : Target} {n m : Nat} (within : t.Within n) (le : n ≤ m) : t.Within m :=
  ⟨Nat.le_trans within.whole le, Nat.le_trans within.path le, Nat.le_trans within.query le,
    Nat.le_trans within.extension le⟩

theorem reachPathOf {whole : Span} {buffer bytes : Bytes} (sliced : whole.slice? buffer = some bytes) :
    (pathOf whole bytes).reach ≤ whole.reach := by
  unfold pathOf
  split
  · rename_i i found
    have inside := firstOfInside found
    have total := Span.sliceLength sliced
    have stop := whole.stopLeReach
    simp only [Span.reach] at stop ⊢
    omega
  · exact Nat.le_refl _

theorem reachQueryOf {whole : Span} {buffer bytes : Bytes} (sliced : whole.slice? buffer = some bytes) :
    (queryOf whole bytes).reach ≤ whole.reach := by
  have stop := whole.stopLeReach
  unfold queryOf
  split
  · rename_i i found
    have inside := firstOfInside found
    have total := Span.sliceLength sliced
    exact Span.reachRange (by omega) stop
  · exact stop

theorem reachExtensionOf {path : Span} {buffer : Bytes} :
    (extensionOf path ((path.slice? buffer).getD [])).reach ≤ path.reach := by
  have stop := path.stopLeReach
  unfold extensionOf
  split
  · rename_i i found
    have inside := lastMarkInside found
    cases sliced : path.slice? buffer with
    | none => simp [sliced] at inside
    | some bytes =>
      have total := Span.sliceLength sliced
      simp only [sliced, Option.getD_some] at inside
      exact Span.reachRange (by omega) stop
  · exact stop

theorem splitWithin {buffer : Bytes} {whole : Span} {target : Target}
    (parted : split buffer whole = .ok target) : target.Within whole.reach := by
  unfold split at parted
  split at parted
  · rename_i first rest sliced
    split at parted
    · cases Except.ok.inj parted
      have path := reachPathOf sliced
      exact ⟨Nat.le_refl _, path, reachQueryOf sliced, Nat.le_trans reachExtensionOf path⟩
    · contradiction
  · contradiction

theorem splitAppend {buffer : Bytes} {whole : Span} (inside : whole.reach ≤ buffer.length) (more : Bytes) :
    split (buffer ++ more) whole = split buffer whole := by
  unfold split
  rw [Span.sliceAppend inside]
  cases sliced : whole.slice? buffer with
  | none => rfl
  | some bytes =>
    cases bytes with
    | nil => rfl
    | cons first rest =>
      have path : (pathOf whole (first :: rest)).reach ≤ buffer.length :=
        Nat.le_trans (reachPathOf sliced) inside
      simp only [Span.sliceAppend path]

end Target

namespace FieldSpans

theorem valueAppend {spans : FieldSpans} {held : Bytes} (within : ∀ entry ∈ spans, entry.2.reach ≤ held.length)
    (field : Field) (rest : Bytes) : spans.value field (held ++ rest) = spans.value field held := by
  unfold FieldSpans.value FieldSpans.get?
  cases noted : List.lookup field spans with
  | none => rfl
  | some span =>
    obtain ⟨before, after, parts, _⟩ := List.lookup_eq_some_iff.mp noted
    have inside := within (field, span) (by simp [parts])
    simp only [bind, Option.bind, Span.sliceAppend inside]

end FieldSpans

namespace Draft

structure Within (d : Draft) (n : Nat) : Prop where
  mark : d.mark ≤ n
  name : d.name.reach ≤ n
  value : d.value.reach ≤ n
  target : d.target.Within n
  fields : ∀ entry ∈ d.fields, entry.2.reach ≤ n

theorem Within.mono {d : Draft} {n m : Nat} (within : d.Within n) (le : n ≤ m) : d.Within m :=
  ⟨Nat.le_trans within.mark le, Nat.le_trans within.name le, Nat.le_trans within.value le,
    within.target.mono le, fun entry member => Nat.le_trans (within.fields entry member) le⟩

theorem Within.parked {d : Draft} {n : Nat} (within : d.Within n) (position : Nat) :
    (d.parked position).Within n :=
  ⟨within.mark, within.name, within.value, within.target, within.fields⟩

theorem freshWithin (n : Nat) : Within {} n :=
  ⟨Nat.zero_le n, Nat.zero_le n, Nat.zero_le n,
    ⟨Nat.zero_le n, Nat.zero_le n, Nat.zero_le n, Nat.zero_le n⟩, by simp⟩

theorem setWithin {fields : FieldSpans} {n : Nat} (within : ∀ entry ∈ fields, entry.2.reach ≤ n)
    (field : Field) {value : Span} (inside : value.reach ≤ n) :
    ∀ entry ∈ fields.set field value, entry.2.reach ≤ n := by
  intro entry member
  rcases List.mem_cons.mp member with rfl | kept
  · exact inside
  · exact within entry (List.mem_filter.mp kept).1

end Draft
end StaticHttp
