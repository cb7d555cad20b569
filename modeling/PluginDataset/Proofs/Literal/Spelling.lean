import Mathlib.Algebra.Group.Nat.Defs
import Mathlib.Data.List.Forall2
import PluginDataset.Literal.Escape

/-!
# Spellings of a text

A character can be spelled in several ways in the body of a literal: as it is, by a letter, or by
its number in base eight or sixteen. The number of digits is fixed for each way, so that a spelling
ends where its own characters do, whatever comes after it. A text is decoded from any spellings of
its characters, with line continuations anywhere between them.

## Main definitions

* `Literal.HexWidth` lists the widths of numbers in base sixteen, each with its letter.
* `Literal.Spelling` lists the spellings of a character.
* `Literal.BodyPart` is a character in one of its spellings, or a line continuation.

## Main results

* `Literal.hexWidth?_eq_some_iff`: the letters that are followed by such numbers.
* `Literal.unescapeFrom_part`: one part is decoded, whatever comes after it.
* `Literal.unescape_parts`: a body is decoded to the characters that its parts spell.
-/

namespace PluginDataset.Literal

/-! ## Digits -/

/-- The last digits of a number, the highest one first. -/
def lastDigits (base : Nat) : (width : Nat) → Nat → List Nat
  | 0, _ => []
  | width + 1, n => lastDigits base width (n / base) ++ [n % base]

/-- The number that some digits add up to after others. -/
def addDigits (base : Nat) (value : Nat) (digits : List Nat) : Nat :=
  digits.foldl (fun value d => value * base + d) value

/-- A digit in base sixteen, with a letter of either case. -/
def IsHexDigit (d : Nat) (x : Char) : Prop :=
  x = Text.digitChar d ∨ x = (Text.digitChar d).toUpper

theorem length_lastDigits (base width n : Nat) : (lastDigits base width n).length = width := by
  induction width generalizing n with
  | zero => rfl
  | succ width ih => rw [lastDigits, List.length_append, ih, List.length_singleton]

theorem lt_of_mem_lastDigits {base width n d : Nat} (hbase : 0 < base)
    (h : d ∈ lastDigits base width n) : d < base := by
  induction width generalizing n with
  | zero => exact absurd h List.not_mem_nil
  | succ width ih =>
    rcases List.mem_append.1 h with h | h
    · exact ih h
    · rw [List.mem_singleton.1 h]
      exact Nat.mod_lt n hbase

/-- Digits add up to the number whose last digits they are. -/
theorem addDigits_lastDigits (base width n : Nat) :
    addDigits base 0 (lastDigits base width n) = n % base ^ width := by
  induction width generalizing n with
  | zero => rw [Nat.pow_zero, Nat.mod_one]; rfl
  | succ width ih =>
    have hsplit : addDigits base 0 (lastDigits base (width + 1) n) =
        addDigits base 0 (lastDigits base width (n / base)) * base + n % base := by
      rw [lastDigits, addDigits, List.foldl_append]
      rfl
    rw [hsplit, ih, Nat.pow_succ', Nat.mod_mul, Nat.mul_comm, Nat.add_comm]

theorem digitValue?_of_isHexDigit {d : Nat} {x : Char} (hd : d < 16) (h : IsHexDigit d x) :
    Text.digitValue? 16 x = some d := by
  have hcases : ∀ d < 16, Text.digitValue? 16 (Text.digitChar d) = some d ∧
      Text.digitValue? 16 (Text.digitChar d).toUpper = some d := by decide
  rcases h with rfl | rfl
  · exact (hcases d hd).1
  · exact (hcases d hd).2

/-! ## Spellings -/

/-- The letters that stand for a character after a backslash. -/
def letterEscapes : List (Char × Char) :=
  [('\\', '\\'), ('\'', '\''), ('"', '"'), ('a', '\x07'), ('b', '\x08'), ('f', '\x0C'),
    ('n', '\n'), ('r', '\r'), ('t', '\t'), ('v', '\x0B')]

/-- The widths of numbers in base sixteen. -/
inductive HexWidth where
  | two
  | four
  | eight

def HexWidth.letter : HexWidth → Char
  | two => 'x'
  | four => 'u'
  | eight => 'U'

def HexWidth.toNat : HexWidth → Nat
  | two => 2
  | four => 4
  | eight => 8

/-- A letter asks for a number of digits if it is that of a width, and the width is this number. -/
theorem hexWidth?_eq_some_iff {c : Char} {n : Nat} :
    hexWidth? c = some n ↔ ∃ width : HexWidth, c = width.letter ∧ n = width.toNat := by
  constructor
  · intro h
    unfold hexWidth? at h
    split at h
    · exact ⟨.two, rfl, (Option.some.inj h).symm⟩
    · exact ⟨.four, rfl, (Option.some.inj h).symm⟩
    · exact ⟨.eight, rfl, (Option.some.inj h).symm⟩
    · simp at h
  · rintro ⟨width, rfl, rfl⟩
    cases width <;> rfl

theorem hexWidth?_eq_none_iff {c : Char} :
    hexWidth? c = none ↔ ∀ width : HexWidth, c ≠ width.letter := by
  rw [Option.eq_none_iff_forall_ne_some]
  constructor
  · intro h width heq
    exact h width.toNat (hexWidth?_eq_some_iff.2 ⟨width, heq, rfl⟩)
  · intro h n hn
    obtain ⟨width, heq, -⟩ := hexWidth?_eq_some_iff.1 hn
    exact h width heq

/-- The ways to spell a character: as it is unless it is a backslash, by a letter, or by its number
if that fits the digits. -/
inductive Spelling (c : Char) where
  | verbatim (hne : c ≠ '\\')
  | letter (l : Char) (hmem : (l, c) ∈ letterEscapes)
  | octal (hfits : c.toNat ≤ 0o777)
  | hex (width : HexWidth) (digits : List Char) (hfits : c.toNat < 16 ^ width.toNat)
    (hdigits : List.Forall₂ IsHexDigit (lastDigits 16 width.toNat c.toNat) digits)

def Spelling.text {c : Char} : Spelling c → List Char
  | .verbatim _ => [c]
  | .letter l _ => ['\\', l]
  | .octal _ => '\\' :: (lastDigits 8 3 c.toNat).map Text.digitChar
  | .hex width digits _ _ => '\\' :: width.letter :: digits

/-- A part of a body: a character in one of its spellings, or the end of a line that goes on. -/
inductive BodyPart where
  | character (c : Char) (spelling : Spelling c)
  | continuation

namespace BodyPart

def text : BodyPart → List Char
  | .character _ spelling => spelling.text
  | .continuation => ['\\', '\n']

/-- What a part stands for. -/
def value : BodyPart → List Char
  | .character c _ => [c]
  | .continuation => []

end BodyPart

/-! ## Decoding -/

/-- A step that succeeds leaves the rest to the state after it. -/
theorem unescapeFrom_cons {state state' : EscapeState} {c : Char} {out : List Char}
    (h : state.step c = .ok (state', out)) (s : List Char) :
    unescapeFrom state (c :: s) = (unescapeFrom state' s).map (out ++ ·) := by
  cases hs : unescapeFrom state' s <;> simp [unescapeFrom, h, hs, bind, Except.bind, Except.map,
    pure, Except.pure]

/-- A step that decides nothing leaves all to the state after it. -/
theorem unescapeFrom_silent {state state' : EscapeState} {c : Char}
    (h : state.step c = .ok (state', [])) (s : List Char) :
    unescapeFrom state (c :: s) = unescapeFrom state' s := by
  rw [unescapeFrom_cons h]
  cases unescapeFrom state' s <;> rfl

theorem step_backslash {c : Char} {state : EscapeState} {out : List Char}
    (h : afterBackslash c = (state, out)) : EscapeState.step .backslash c = .ok (state, out) := by
  rw [EscapeState.step, h]

theorem unescapeFrom_backslash (s : List Char) :
    unescapeFrom .text ('\\' :: s) = unescapeFrom .backslash s :=
  unescapeFrom_silent rfl s

/-- A letter stands for its character. -/
theorem unescapeFrom_letter {l c : Char} (hmem : (l, c) ∈ letterEscapes) (s : List Char) :
    unescapeFrom .backslash (l :: s) = (unescapeFrom .text s).map (c :: ·) := by
  have hletters : ∀ p ∈ letterEscapes, afterBackslash p.1 = (.text, [p.2]) := by decide
  exact unescapeFrom_cons (step_backslash (hletters (l, c) hmem)) s

/-- After its letter all digits of a width are owed. -/
theorem afterBackslash_letter (width : HexWidth) :
    afterBackslash width.letter = (.hex width.toNat width.toNat 0, []) := by
  cases width <;> rfl

theorem characterOf_toNat (fault : Nat → EscapeFault) (c : Char) :
    characterOf fault c.toNat = .ok c := by
  have hvalid : c.toNat.isValidChar := c.valid
  rw [characterOf, if_pos hvalid, Char.ofNat_toNat]

section

variable {c : Char} {width left value digit : Nat}

/-- An octal digit is added to the number, and more may follow. -/
theorem octal_step_digit (h : Text.digitValue? 8 c = some digit) (hmore : ¬ left ≤ 1) :
    EscapeState.step (.octal value left) c = .ok (.octal (value * 8 + digit) (left - 1), []) := by
  simp only [EscapeState.step, h, if_neg hmore]

theorem octal_step_last (h : Text.digitValue? 8 c = some digit) (hlast : left ≤ 1) :
    EscapeState.step (.octal value left) c =
      (characterOf .octalOutOfRange (value * 8 + digit)).map fun x => (.text, [x]) := by
  simp only [EscapeState.step, h, if_pos hlast]

/-- An octal number ends before a character that is no digit. -/
theorem octal_step_end (h : Text.digitValue? 8 c = none) :
    EscapeState.step (.octal value left) c =
      (characterOf .octalOutOfRange value).map fun x => ((afterText c).1, x :: (afterText c).2) := by
  simp only [EscapeState.step, h]

/-- A hexadecimal digit is added to the number, and more have to follow. -/
theorem hex_step_digit (h : Text.digitValue? 16 c = some digit) (hmore : ¬ left ≤ 1) :
    EscapeState.step (.hex width left value) c =
      .ok (.hex width (left - 1) (value * 16 + digit), []) := by
  simp only [EscapeState.step, h, if_neg hmore]

theorem hex_step_last (h : Text.digitValue? 16 c = some digit) (hlast : left ≤ 1) :
    EscapeState.step (.hex width left value) c =
      (characterOf .outOfRange (value * 16 + digit)).map fun x => (.text, [x]) := by
  simp only [EscapeState.step, h, if_pos hlast]

theorem hex_step_end (h : Text.digitValue? 16 c = none) :
    EscapeState.step (.hex width left value) c = .error (.truncated width) := by
  simp only [EscapeState.step, h]

end

/-- Three octal digits stand for the character of their number. -/
theorem unescapeFrom_octal {c : Char} (hfits : c.toNat ≤ 0o777) (s : List Char) :
    unescapeFrom .backslash ((lastDigits 8 3 c.toNat).map Text.digitChar ++ s) =
      (unescapeFrom .text s).map (c :: ·) := by
  have hfirst : ∀ d < 8, afterBackslash (Text.digitChar d) = (.octal d 2, []) := by decide
  have hdigit : ∀ n, Text.digitValue? 8 (Text.digitChar (n % 8)) = some (n % 8) := fun n =>
    Text.digitValue?_digitChar (Nat.mod_lt n (by decide)) (by decide)
  have hdigits : lastDigits 8 3 c.toNat =
      [c.toNat / 8 / 8 % 8, c.toNat / 8 % 8, c.toNat % 8] := rfl
  have hnumber : (c.toNat / 8 / 8 % 8 * 8 + c.toNat / 8 % 8) * 8 + c.toNat % 8 = c.toNat := by
    omega
  have hthird : EscapeState.step
      (.octal (c.toNat / 8 / 8 % 8 * 8 + c.toNat / 8 % 8) 1) (Text.digitChar (c.toNat % 8)) =
        .ok (.text, [c]) := by
    rw [octal_step_last (hdigit _) (Nat.le_refl 1), hnumber, characterOf_toNat]
    rfl
  rw [hdigits, List.map_cons, List.map_cons, List.map_singleton, List.cons_append,
    List.cons_append, List.singleton_append,
    unescapeFrom_silent (step_backslash (hfirst _ (Nat.mod_lt _ (by decide)))),
    unescapeFrom_silent (octal_step_digit (hdigit _) (by decide)), unescapeFrom_cons hthird]
  rfl

/-- The digits that are owed are added, and the number has to be that of a character. -/
theorem unescapeFrom_hexDigits {digits : List Char} {value code : Nat} (width : Nat)
    (hne : digits ≠ []) (hcode : Text.addDigits? 16 value digits = some code) (s : List Char) :
    unescapeFrom (.hex width digits.length value) (digits ++ s) =
      (characterOf .outOfRange code).bind fun x => (unescapeFrom .text s).map ([x] ++ ·) := by
  induction digits generalizing value with
  | nil => exact absurd rfl hne
  | cons x digits ih =>
    obtain ⟨digit, hdigit, hrest⟩ := Text.addDigits?_cons hcode
    by_cases hlast : digits = []
    · subst hlast
      obtain rfl := Option.some.inj hrest
      rw [List.length_singleton, List.singleton_append]
      have hstep : EscapeState.step (.hex width 1 value) x = _ :=
        hex_step_last hdigit (Nat.le_refl 1)
      cases hchar : characterOf .outOfRange (value * 16 + digit) with
      | error fault =>
        rw [hchar] at hstep
        rw [unescapeFrom, hstep]
        rfl
      | ok x =>
        rw [hchar] at hstep
        exact unescapeFrom_cons hstep s
    · have hpos := List.length_pos_of_ne_nil hlast
      have hmore : ¬(x :: digits).length ≤ 1 := by
        rw [List.length_cons]
        omega
      rw [List.cons_append, unescapeFrom_silent (hex_step_digit hdigit hmore)]
      exact ih hlast hrest

theorem addDigits?_of_isHexDigit {values : List Nat} {digits : List Char}
    (hdigits : List.Forall₂ IsHexDigit values digits) (hvalues : ∀ d ∈ values, d < 16)
    (value : Nat) : Text.addDigits? 16 value digits = some (addDigits 16 value values) := by
  induction hdigits generalizing value with
  | nil => rfl
  | cons hdigit _ ih =>
    rw [List.forall_mem_cons] at hvalues
    rw [Text.addDigits?, digitValue?_of_isHexDigit hvalues.1 hdigit]
    exact ih hvalues.2 _

/-- A character is decoded from each of its spellings, whatever comes after it. -/
theorem Spelling.unescapeFrom_text {c : Char} (spelling : Spelling c) (s : List Char) :
    unescapeFrom .text (spelling.text ++ s) = (unescapeFrom .text s).map (c :: ·) := by
  cases spelling with
  | verbatim hne =>
    have hstep : EscapeState.step .text c = .ok (.text, [c]) := by
      rw [EscapeState.step, afterText, if_neg hne]
    exact unescapeFrom_cons hstep s
  | letter l hmem =>
    rw [text, List.cons_append, unescapeFrom_backslash]
    exact unescapeFrom_letter hmem s
  | octal hfits =>
    rw [text, List.cons_append, unescapeFrom_backslash]
    exact unescapeFrom_octal hfits s
  | hex width digits hfits hdigits =>
    have hlength : digits.length = width.toNat :=
      hdigits.length_eq.symm.trans (length_lastDigits ..)
    have hne : digits ≠ [] := by
      intro hnil
      rw [hnil] at hlength
      cases width <;> simp [HexWidth.toNat] at hlength
    have hnumber : addDigits 16 0 (lastDigits 16 width.toNat c.toNat) = c.toNat := by
      rw [addDigits_lastDigits, Nat.mod_eq_of_lt hfits]
    have hcode : Text.addDigits? 16 0 digits = some c.toNat := by
      rw [addDigits?_of_isHexDigit hdigits (fun d => lt_of_mem_lastDigits (by decide)), hnumber]
    have hread := unescapeFrom_hexDigits width.toNat hne hcode s
    rw [hlength, characterOf_toNat] at hread
    rw [text, List.cons_append, List.cons_append, unescapeFrom_backslash,
      unescapeFrom_silent (step_backslash (afterBackslash_letter width)), hread]
    rfl

/-- One part of a body is decoded, whatever comes after it. -/
theorem unescapeFrom_part (part : BodyPart) (s : List Char) :
    unescapeFrom .text (part.text ++ s) = (unescapeFrom .text s).map (part.value ++ ·) := by
  cases part with
  | character c spelling => exact spelling.unescapeFrom_text s
  | continuation =>
    rw [BodyPart.text, List.cons_append, unescapeFrom_backslash]
    exact unescapeFrom_cons rfl s

/-- A body is decoded to the text that its parts spell, in whichever way each character is spelled
and wherever a line goes on. -/
theorem unescape_parts (parts : List BodyPart) :
    unescape (parts.flatMap BodyPart.text) = .ok (parts.flatMap BodyPart.value) := by
  rw [unescape]
  induction parts with
  | nil => rfl
  | cons part parts ih =>
    rw [List.flatMap_cons, List.flatMap_cons, unescapeFrom_part, ih]
    rfl

/-- A digit may follow three octal digits, and a hexadecimal one the two after `x`. -/
example : unescape "\\1010\\x4aa\\\n\\u000A".toList = .ok "A0Ja\n".toList := by rfl

end PluginDataset.Literal
