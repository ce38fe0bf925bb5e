import StaticHttp.Proofs.Reach
/-! The path of a target and what is taken for its extension, as texts. They are noted
as spans, and are read back from every buffer that begins with the one they were
found in. -/
namespace StaticHttp

namespace Span
variable {s : Span} {buffer bytes : Bytes} {n : Nat}

theorem stopWord (s : Span) : s.stop < Word.size := Nat.mod_lt _ (by decide)

theorem sliceMore (sliced : s.slice? buffer = some bytes) (more : Bytes) : s.slice? (buffer ++ more) = some bytes := by
  obtain ⟨lower, upper, rfl⟩ := sliceSomeIff.mp sliced
  refine sliceSomeIff.mpr ⟨lower, by simp only [List.length_append]; omega, ?_⟩
  rw [List.drop_append_of_le_length (by omega), List.take_append_of_le_length (by simp only [List.length_drop]; omega)]

theorem sliceFront (sliced : s.slice? buffer = some bytes) (inside : n ≤ bytes.length) :
    (⟨s.start, n⟩ : Span).slice? buffer = some (bytes.take n) := by
  have total := sliceLength sliced
  have word := s.stopWord
  obtain ⟨_, upper, rfl⟩ := sliceSomeIff.mp sliced
  have stop : (⟨s.start, n⟩ : Span).stop = s.start + n := Word.addFits (by simp only; omega)
  refine sliceSomeIff.mpr ⟨by simp only [stop]; omega, by omega, ?_⟩
  rw [stop, List.take_take]
  congr 1
  simp only [List.length_take, List.length_drop] at inside
  simp only
  omega

theorem sliceRest (sliced : s.slice? buffer = some bytes) (inside : n ≤ bytes.length) :
    (range (s.start + n) s.stop).slice? buffer = some (bytes.drop n) := by
  have total := sliceLength sliced
  have word := s.stopWord
  obtain ⟨_, upper, rfl⟩ := sliceSomeIff.mp sliced
  have stop : (range (s.start + n) s.stop).stop = s.stop := by
    have whole : s.start + n + (s.stop - (s.start + n)) = s.stop := by omega
    exact (Word.addFits (by simp only [range]; omega)).trans whole
  have start : (range (s.start + n) s.stop).start = s.start + n := rfl
  refine sliceSomeIff.mpr ⟨by omega, by omega, ?_⟩
  rw [stop, start, List.drop_take, List.drop_drop]
  congr 1
  omega

end Span

namespace Target

theorem firstOfLength (b : UInt8) (bytes : Bytes) :
    (firstOf b bytes).getD bytes.length = (bytes.takeWhile (· != b)).length := by
  induction bytes with
  | nil => rfl
  | cons c rest ih =>
    simp only [firstOf, List.findIdx?_cons, List.takeWhile_cons] at ih ⊢
    by_cases here : c = b
    · simp [here]
    · have later : (c == b) = false := by simpa using here
      have onward : (c != b) = true := by simpa using here
      simp only [later, onward, if_true, Bool.false_eq_true, if_false, List.length_cons, ← ih]
      cases List.findIdx? (fun x => x == b) rest with
      | none => rfl
      | some i => rfl

def suffix (path : Bytes) : Bytes :=
  match lastMark path with
  | some (i, true) => path.drop (i + 1)
  | _ => []

structure Told (t : Target) (text buffer : Bytes) : Prop where
  path : t.path.slice? buffer = some text
  extension : t.extension.slice? buffer = some (suffix text)

variable {t : Target} {whole : Span} {path buffer bytes : Bytes}

theorem toldNothing (buffer : Bytes) : ({} : Target).Told [] buffer := by
  have nothing : Span.unset.slice? buffer = some [] :=
    Span.sliceSomeIff.mpr ⟨Nat.le_refl _, Nat.zero_le _, by simp [Span.unset, Span.stop, Word.add]⟩
  exact ⟨nothing, nothing⟩

theorem Told.append (told : t.Told path buffer) (more : Bytes) : t.Told path (buffer ++ more) :=
  ⟨Span.sliceMore told.path more, Span.sliceMore told.extension more⟩

theorem pathSliced (sliced : whole.slice? buffer = some bytes) :
    (pathOf whole bytes).slice? buffer = some (bytes.takeWhile (· != Byte.question)) := by
  have length := firstOfLength Byte.question bytes
  have front : bytes.take (bytes.takeWhile (· != Byte.question)).length = bytes.takeWhile (· != Byte.question) :=
    (List.prefix_iff_eq_take.mp (List.takeWhile_prefix _)).symm
  unfold pathOf
  cases found : firstOf Byte.question bytes with
  | none =>
    rw [found, Option.getD_none] at length
    rw [← front, ← length, List.take_length]
    exact sliced
  | some i =>
    rw [found, Option.getD_some] at length
    rw [← front, ← length]
    exact Span.sliceFront sliced (Nat.le_of_lt (firstOfInside found))

theorem extensionSliced {span : Span} (sliced : span.slice? buffer = some path) :
    (extensionOf span path).slice? buffer = some (suffix path) := by
  have nothing : (Span.emptyAt span.stop).slice? buffer = some [] := by
    have upper := (Span.sliceSomeIff.mp sliced).2.1
    have start : (Span.emptyAt span.stop).start = span.stop := rfl
    have stop : (Span.emptyAt span.stop).stop = span.stop := Word.addFits span.stopWord
    exact Span.sliceSomeIff.mpr ⟨by omega, by omega, by rw [start, stop, Nat.sub_self, List.take_zero]⟩
  unfold extensionOf suffix
  cases found : lastMark path with
  | none => exact nothing
  | some mark =>
    obtain ⟨i, isDot⟩ := mark
    cases isDot with
    | true => exact Span.sliceRest sliced (lastMarkInside found)
    | false => exact nothing

theorem splitTold (sliced : whole.slice? buffer = some bytes) (parted : split buffer whole = .ok t) :
    t.Told (bytes.takeWhile (· != Byte.question)) buffer := by
  have path := pathSliced sliced
  unfold split at parted
  rw [sliced] at parted
  split at parted
  · rename_i first rest same
    cases same
    split at parted
    · cases parted
      refine ⟨path, ?_⟩
      simp only [path, Option.getD_some]
      exact extensionSliced path
    · contradiction
  · contradiction

theorem splitSome (parted : split buffer whole = .ok t) : ∃ path, t.Told path buffer := by
  cases sliced : whole.slice? buffer with
  | none =>
    simp [split, sliced] at parted
  | some bytes => exact ⟨_, splitTold sliced parted⟩

end Target
end StaticHttp
