import PluginDataset.Text.Utf8

/-!
# Slices of a text

A text may be cut at offsets into its bytes. This fails if an offset is inside a character or beyond
the end of the text, or if the offsets are not in order. A slice that can be taken is a part of the
text, and its offsets are the numbers of bytes before it and up to its end.

## Main definitions

* `Utf8.slice` gives the text between two offsets, `Utf8.sliceTo` and `Utf8.sliceFrom` the text
  before an offset and behind it.
* `Utf8.offsetOf?` finds the first place at which a pattern stands.

## Main results

* `Utf8.slice_eq_ok_iff`, `Utf8.sliceFrom_eq_ok_iff`: the slices that can be taken.
-/

namespace PluginDataset.Utf8

variable {s part rest pattern : List Char} {start stop : Nat}

/-! ## Slices -/

/-- A slice that cannot be taken from a text. -/
structure BadSlice where
  text : List Char
  start : Nat
  stop : Nat

/-- The text between two byte offsets. -/
def slice (s : List Char) (start stop : Nat) : Except BadSlice (List Char) :=
  match splitAt? start s with
  | none => .error ⟨s, start, stop⟩
  | some (_, rest) =>
    if stop < start then .error ⟨s, start, stop⟩
    else
      match splitAt? (stop - start) rest with
      | none => .error ⟨s, start, stop⟩
      | some (part, _) => .ok part

def sliceTo (s : List Char) (stop : Nat) : Except BadSlice (List Char) :=
  slice s 0 stop

def sliceFrom (s : List Char) (start : Nat) : Except BadSlice (List Char) :=
  slice s start (encode s).length

/-- A slice can be taken if its offsets are those of a part of the text. -/
theorem slice_eq_ok_iff :
    slice s start stop = .ok part ↔
      ∃ before after, s = before ++ (part ++ after) ∧ start = (encode before).length ∧
        stop = (encode before).length + (encode part).length := by
  constructor
  · intro h
    rw [slice] at h
    split at h
    · simp at h
    · next before rest hstart =>
      obtain ⟨rfl, rfl⟩ := splitAt?_eq_some_iff.1 hstart
      split at h
      · simp at h
      · next hle =>
        split at h
        · simp at h
        · next part' after hstop =>
          obtain rfl := Except.ok.inj h
          obtain ⟨rfl, hlength⟩ := splitAt?_eq_some_iff.1 hstop
          exact ⟨before, after, rfl, rfl, by omega⟩
  · rintro ⟨before, after, rfl, rfl, rfl⟩
    have hle : ¬ (encode before).length + (encode part).length < (encode before).length := by omega
    simp only [slice, splitAt?_encode, if_neg hle, Nat.add_sub_cancel_left]

/-- The second byte of a character is no place to cut. -/
example : slice "é".toList 0 1 = .error ⟨"é".toList, 0, 1⟩ := by rfl

theorem slice_append (before part after : List Char) :
    slice (before ++ (part ++ after)) (encode before).length
      ((encode before).length + (encode part).length) = .ok part :=
  slice_eq_ok_iff.2 ⟨before, after, rfl, rfl, rfl⟩

theorem sliceTo_append (part after : List Char) :
    sliceTo (part ++ after) (encode part).length = .ok part :=
  slice_eq_ok_iff.2 ⟨[], after, rfl, rfl, (Nat.zero_add _).symm⟩

theorem sliceFrom_eq_ok_iff :
    sliceFrom s start = .ok rest ↔
      ∃ before, s = before ++ rest ∧ start = (encode before).length := by
  rw [sliceFrom, slice_eq_ok_iff]
  constructor
  · rintro ⟨before, after, rfl, rfl, hstop⟩
    -- nothing is left behind a part that ends with the text
    have hafter : after = [] := by
      cases after with
      | nil => rfl
      | cons c after =>
        have hpos := c.utf8Size_pos
        rw [length_encode_append, length_encode_append, length_encode_cons] at hstop
        omega
    exact ⟨before, by rw [hafter, List.append_nil], rfl⟩
  · rintro ⟨before, rfl, rfl⟩
    exact ⟨before, [], by rw [List.append_nil], rfl, length_encode_append before rest⟩

theorem sliceFrom_append (before rest : List Char) :
    sliceFrom (before ++ rest) (encode before).length = .ok rest :=
  sliceFrom_eq_ok_iff.2 ⟨before, rfl, rfl⟩

/-! ## Patterns -/

/-- The byte offset of the first place at which a pattern stands in a text. -/
def offsetOf? (pattern : List Char) : List Char → Option Nat
  | [] => if pattern = [] then some 0 else none
  | c :: s =>
    if pattern <+: c :: s then some 0
    else (offsetOf? pattern s).map (c.utf8Size + ·)

theorem offsetOf?_of_isPrefix (h : pattern <+: s) : offsetOf? pattern s = some 0 := by
  cases s with
  | nil => rw [offsetOf?, if_pos (List.prefix_nil.1 h)]
  | cons c s => rw [offsetOf?, if_pos h]

theorem offsetOf?_cons {c : Char} (h : ¬ pattern <+: c :: s) :
    offsetOf? pattern (c :: s) = (offsetOf? pattern s).map (c.utf8Size + ·) := by
  rw [offsetOf?, if_neg h]

end PluginDataset.Utf8
