import Mathlib.Data.List.Basic
import PluginDataset.Text.Lines

/-!
# Texts line by line

A text is cut at its line feeds, so that a text is told by its first line and the text after it.

## Main definitions

* `Text.IsLine` describes a line with its end.

## Main results

* `Text.lines_append_newline`: the first line of a text, and the lines after it.
* `Text.lines_flatten`: lines that are put together are cut apart again.
* `Text.lines_append`: the lines of a text behind one that ends with its last line.
* `Text.lines_induction`: induction over the lines of a text.
-/

namespace PluginDataset.Text

/-- A text without a line feed is one line. -/
theorem lines_of_notMem {w : List Char} (hne : w ≠ []) (hw : '\n' ∉ w) : lines w = [w] := by
  induction w with
  | nil => exact absurd rfl hne
  | cons c w ih =>
    rw [List.mem_cons, not_or] at hw
    rw [lines, if_neg (Ne.symm hw.1)]
    by_cases hnil : w = []
    · rw [hnil, lines, consLine]
    · rw [ih hnil hw.2, consLine]

/-- A line feed ends a line. -/
theorem lines_append_newline {w : List Char} (hw : '\n' ∉ w) (s : List Char) :
    lines (w ++ '\n' :: s) = (w ++ ['\n']) :: lines s := by
  induction w with
  | nil => rw [List.nil_append, List.nil_append, lines, if_pos rfl]
  | cons c w ih =>
    rw [List.mem_cons, not_or] at hw
    rw [List.cons_append, lines, if_neg (Ne.symm hw.1), ih hw.2, consLine, List.cons_append]

/-- A line with the line feed that ends it. -/
def IsLine (line : List Char) : Prop :=
  ∃ w, '\n' ∉ w ∧ line = w ++ ['\n']

/-- Lines that are put together are cut apart again. -/
theorem lines_flatten {ls : List (List Char)} (h : ∀ line ∈ ls, IsLine line) :
    lines ls.flatten = ls := by
  induction ls with
  | nil => rfl
  | cons line ls ih =>
    rw [List.forall_mem_cons] at h
    obtain ⟨w, hw, rfl⟩ := h.1
    rw [List.flatten_cons, List.append_assoc, List.singleton_append, lines_append_newline hw,
      ih h.2]

/-- A text is empty, one line without its end, or a line and the text after it. -/
@[elab_as_elim]
theorem lines_induction {P : List Char → Prop} (nil : P [])
    (last : ∀ w, w ≠ [] → '\n' ∉ w → P w) (line : ∀ w s, '\n' ∉ w → P s → P (w ++ '\n' :: s))
    (s : List Char) : P s := by
  by_cases hmem : '\n' ∈ s
  · obtain ⟨w, s', hs, hw⟩ := List.eq_append_cons_of_mem hmem
    have hlength : s'.length < s.length := by
      rw [hs, List.length_append, List.length_cons]
      omega
    rw [hs]
    exact line w s' hw (lines_induction nil last line s')
  · by_cases hnil : s = []
    · rw [hnil]
      exact nil
    · exact last s hnil hmem
termination_by s.length

/-- The first line of a text starts with its first character. -/
theorem exists_lines_cons (c : Char) (s : List Char) :
    ∃ line ls, lines (c :: s) = (c :: line) :: ls := by
  rw [lines]
  split
  · exact ⟨[], lines s, rfl⟩
  · cases lines s with
    | nil => exact ⟨[], [], rfl⟩
    | cons line ls => exact ⟨line, ls, rfl⟩

/-- Behind a line feed a text starts with a line of its own. -/
theorem lines_append {s : List Char} (h : s = [] ∨ s.getLast? = some '\n') (t : List Char) :
    lines (s ++ t) = lines s ++ lines t := by
  induction s using lines_induction with
  | nil => rfl
  | last w hne hw => exact absurd (List.mem_of_getLast? (h.resolve_left hne)) hw
  | line w s hw ih =>
    have hrest : s = [] ∨ s.getLast? = some '\n' := by
      cases s with
      | nil => exact .inl rfl
      | cons c s => exact .inr (by simpa using h)
    rw [List.append_assoc, List.cons_append, lines_append_newline hw, lines_append_newline hw,
      ih hrest, List.cons_append]

/-- What stands before a character and does not have it itself stands before its first one. -/
theorem exists_eq_append_of_notMem {c : Char} {w s m rest : List Char} (hm : c ∉ m)
    (h : w ++ c :: s = m ++ rest) : ∃ x, w = m ++ x ∧ rest = x ++ c :: s := by
  rcases List.append_eq_append_iff.1 h with ⟨x, hx, hs⟩ | ⟨x, hx, hs⟩
  · cases x with
    | nil => exact ⟨[], by simpa using hx.symm, by simpa using hs.symm⟩
    | cons d x =>
      obtain ⟨rfl, _⟩ := List.cons.inj hs
      exact absurd (hx ▸ List.mem_append_right w List.mem_cons_self) hm
  · exact ⟨x, hx, hs⟩

/-- What stands before the first of some character is told by the text. -/
theorem eq_of_append_cons_eq {c : Char} {w w' s s' : List Char} (hw : c ∉ w) (hw' : c ∉ w')
    (h : w ++ c :: s = w' ++ c :: s') : w = w' := by
  obtain ⟨x, rfl, hrest⟩ := exists_eq_append_of_notMem hw' h
  cases x with
  | nil => exact List.append_nil w'
  | cons d x =>
    obtain ⟨rfl, -⟩ := List.cons.inj hrest
    exact absurd (by simp) hw

end PluginDataset.Text
