import PluginDataset.BooleanWords
import PluginDataset.Text.Slice

/-!
# Boolean words at byte offsets

The value of a line can be found by offsets into the bytes of the line. One offset is moved behind
the indent, behind the markers one by one, behind the key and the spaces after it; the other one is
where the comment starts, less the blanks before it. Each step looks at another slice of the line,
and a slice can be taken only between two characters.

## Main definitions

* `BooleanWords.skipMarkers` is the loop over the markers of a line, `BooleanWords.valueOffsets`
  gives the offsets of its value.
* `BooleanWords.normalizeByOffsets` replaces the words of a text by such slices of its lines.
-/

namespace PluginDataset.BooleanWords

open Utf8 (encode BadSlice slice sliceTo sliceFrom offsetOf?)

variable {line : List Char} {start stop : Nat}

/-! ## Markers -/

/-- The number of bytes that a text has more than what stands behind its spaces. -/
def spaceBytes (s : List Char) : Nat :=
  (encode s).length - (encode (s.dropWhile (· == ' '))).length

/-- The offset behind the spaces that stand at an offset. -/
def skipSpaces (line : List Char) (start : Nat) : Except BadSlice Nat := do
  let rest ← sliceFrom line start
  return start + spaceBytes rest

theorem le_of_skipSpaces (h : skipSpaces line start = .ok stop) :
    start ≤ stop ∧ start ≤ (encode line).length := by
  rw [skipSpaces] at h
  cases hrest : sliceFrom line start with
  | error fault => simp [hrest, bind, Except.bind] at h
  | ok rest =>
    obtain ⟨before, rfl, rfl⟩ := Utf8.sliceFrom_eq_ok_iff.1 hrest
    rw [hrest] at h
    obtain rfl := Except.ok.inj h
    rw [Utf8.length_encode_append]
    omega

/-- The offset behind the marker that stands at an offset and behind the spaces after it, if there
is a marker. -/
def markerEnd? (line : List Char) (start : Nat) : Except BadSlice (Option Nat) := do
  let rest ← sliceFrom line start
  if ['-', ' '] <+: rest then
    return some (← skipSpaces line (start + 2))
  else return none

/-- Behind a marker less of the line is left. -/
theorem sub_lt_of_markerEnd? (h : markerEnd? line start = .ok (some stop)) :
    (encode line).length - stop < (encode line).length - start := by
  have hskip : skipSpaces line (start + 2) = .ok stop := by
    rw [markerEnd?] at h
    cases hrest : sliceFrom line start with
    | error fault => simp [hrest, bind, Except.bind] at h
    | ok rest =>
      rw [hrest] at h
      by_cases hmarker : ['-', ' '] <+: rest
      · cases hskip : skipSpaces line (start + 2) with
        | error fault => simp [hmarker, hskip, bind, Except.bind] at h
        | ok stop' => simpa [hmarker, hskip, bind, Except.bind, pure, Except.pure] using h
      · simp [hmarker, bind, Except.bind, pure, Except.pure] at h
  obtain ⟨hstop, hlength⟩ := le_of_skipSpaces hskip
  omega

/-- The offset behind the markers that stand at an offset, and whether there is one there or
before. -/
def skipMarkers (line : List Char) (start : Nat) (inSequence : Bool) :
    Except BadSlice (Nat × Bool) :=
  match h : markerEnd? line start with
  | .error fault => .error fault
  | .ok none => .ok (start, inSequence)
  | .ok (some stop) =>
    have : (encode line).length - stop < (encode line).length - start := sub_lt_of_markerEnd? h
    skipMarkers line stop true
termination_by (encode line).length - start

theorem skipMarkers_eq (line : List Char) (start : Nat) (inSequence : Bool) :
    skipMarkers line start inSequence =
      markerEnd? line start >>= fun
        | none => .ok (start, inSequence)
        | some stop => skipMarkers line stop true := by
  rw [skipMarkers]
  split
  · next fault h => rw [h]; rfl
  · next h => rw [h]; rfl
  · next stop h =>
    dsimp only
    rw [h]
    rfl

/-! ## Values -/

/-- The text up to the offset of its first comment. -/
def sliceToComment (s : List Char) : Except BadSlice (List Char) :=
  match offsetOf? [' ', '#'] s with
  | some comment => sliceTo s comment
  | none => .ok s

/-- The offsets of the value that starts at an offset, if it is not empty. -/
def valueOffsetsFrom (line : List Char) (start : Nat) : Except BadSlice (Option (Nat × Nat)) := do
  let rest ← sliceFrom line start
  let value := Text.trimEnd (← sliceToComment rest)
  return if value = [] then none else some (start, start + (encode value).length)

/-- The offsets of the value of a line with the given indent. -/
def valueOffsets (line : List Char) (indent : Nat) : Except BadSlice (Option (Nat × Nat)) := do
  let (start, inSequence) ← skipMarkers line indent false
  let rest ← sliceFrom line start
  if startsQuotedOrComment rest then return none
  else
    match offsetOf? [':', ' '] rest with
    | some colon => valueOffsetsFrom line (← skipSpaces line (start + colon + 2))
    | none => if inSequence then valueOffsetsFrom line start else return none

/-! ## Lines and texts -/

/-- What is written for a value, if it is not what stands there. -/
def replacement? (value : List Char) : Option (List Char) :=
  if normalizeValue value = value then none else some (normalizeValue value)

/-- A line that is not inside a block scalar with its words replaced, and the indent that a block
scalar opened by the line has to exceed. The line is cut only if its value changes. -/
def normalizeLineByOffsets (line : List Char) : Except BadSlice (List Char × Option Nat) := do
  let indent := spaceBytes line
  match ← valueOffsets line indent with
  | none => return (line, none)
  | some (start, stop) =>
    let value ← slice line start stop
    if isBlockHeader value then return (line, some indent)
    else
      match replacement? value with
      | none => return (line, none)
      | some value' => return ((← sliceTo line start) ++ value' ++ (← sliceFrom line stop), none)

def normalizeLinesByOffsets :
    (parent : Option Nat) → List (List Char) → Except BadSlice (List (List Char))
  | _, [] => .ok []
  | parent, line :: rest => do
    if insideBlock parent line then
      return line :: (← normalizeLinesByOffsets parent rest)
    else
      let (line', opened) ← normalizeLineByOffsets line
      return line' :: (← normalizeLinesByOffsets opened rest)

/-- A text with its words replaced, where the lines are cut at byte offsets. -/
def normalizeByOffsets (text : List Char) : Except BadSlice (List Char) := do
  let ls ← normalizeLinesByOffsets none (Text.lines text)
  return ls.flatten

end PluginDataset.BooleanWords
