/-!
# Lines of a text

## Main definitions

* `Text.lines` cuts a text after each line feed; the line feed stays at the end of its line.

## Main results

* `Text.flatten_lines`: nothing is lost by cutting a text into lines.
-/

namespace PluginDataset.Text

def consLine (c : Char) : List (List Char) → List (List Char)
  | [] => [[c]]
  | line :: rest => (c :: line) :: rest

/-- The lines of a text, each with the line feed that ends it. -/
def lines : List Char → List (List Char)
  | [] => []
  | c :: cs => if c = '\n' then [c] :: lines cs else consLine c (lines cs)

theorem flatten_consLine (c : Char) (ls : List (List Char)) :
    (consLine c ls).flatten = c :: ls.flatten := by
  cases ls <;> rfl

theorem flatten_lines (s : List Char) : (lines s).flatten = s := by
  induction s with
  | nil => rfl
  | cons c cs ih =>
    by_cases h : c = '\n' <;> simp [lines, h, ih, flatten_consLine]

end PluginDataset.Text
