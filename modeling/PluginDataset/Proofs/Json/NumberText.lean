import Mathlib.Tactic.Tauto
import PluginDataset.Proofs.Json.Scalars

/-!
# The notation of numbers

A number is written as an optional minus sign, digits without a leading zero, an optional fraction
and an optional exponent. The reader takes up exactly such a text, as far as it goes, and gives the
number that it stands for, if there is one in range.

## Main definitions

* `Json.NumberText` is a number as it is written; `Json.NumberText.text` is its text.
* `Json.NumberText.value?` is the number that it stands for.

## Main results

* `Json.readNumber?_append`: a number is read up to a text that does not continue it.
* `Json.exists_numberText`: what is read as a number is written in this notation.
-/

namespace PluginDataset.Json

/-- At least one digit, and nothing else. -/
def IsDigits (s : List Char) : Prop :=
  s ≠ [] ∧ ∀ c ∈ s, c.isDigit = true

instance : DecidablePred IsDigits := fun s =>
  decidable_of_iff (s ≠ [] ∧ s.all Char.isDigit = true) (and_congr_right' List.all_eq_true)

/-- An exponent as it is written. The sign tells whether it is a minus, if there is one. -/
structure ExponentText where
  upperCase : Bool
  sign : Option Bool
  digits : List Char
  isDigits : IsDigits digits

/-- A number as it is written. -/
structure NumberText where
  negative : Bool
  whole : List Char
  fraction : Option (List Char)
  exponent : Option ExponentText
  isDigits_whole : IsDigits whole
  noLeadingZero : ¬(whole.length > 1 ∧ whole.head? = some '0')
  isDigits_fraction : ∀ f ∈ fraction, IsDigits f

namespace ExponentText

def mark (e : ExponentText) : Char :=
  if e.upperCase then 'E' else 'e'

def signText (e : ExponentText) : List Char :=
  match e.sign with
  | none => []
  | some false => ['+']
  | some true => ['-']

def minus (e : ExponentText) : Bool :=
  e.sign == some true

def text (e : ExponentText) : List Char :=
  e.mark :: (e.signText ++ e.digits)

/-- The number that the digits before an exponent stand for with it. -/
def value? (e : ExponentText) (d : Decimal) (negative : Bool) : Option Binary64 := do
  d.withExponent? negative e.minus (← Text.natOfDigits? 10 e.digits)

end ExponentText

/-- The text of an exponent that may be missing. -/
def exponentText : Option ExponentText → List Char
  | some e => e.text
  | none => []

/-- The text of a fraction that may be missing. -/
def fractionText : Option (List Char) → List Char
  | some f => '.' :: f
  | none => []

/-- The number that digits stand for with an exponent that may be missing. -/
def scaledValue? (d : Decimal) (negative : Bool) : Option ExponentText → Option Number
  | some e => (e.value? d negative).map .float
  | none => (d.toBinary64? negative).map .float

/-- The number that whole digits stand for with what comes after them. It is an integer if nothing
comes after them and they fit into 64 bits. -/
def valueAfter? (fits : Bool) (d : Decimal) (negative : Bool) :
    Option (List Char) → Option ExponentText → Option Number
  | some f, e => scaledValue? (pushFraction d f) negative e
  | none, some e => scaledValue? d negative (some e)
  | none, none => if fits then integer? negative d.digits else scaledValue? d negative none

namespace NumberText

/-- The text without its sign. -/
def magnitude (t : NumberText) : List Char :=
  t.whole ++ (fractionText t.fraction ++ exponentText t.exponent)

def text (t : NumberText) : List Char :=
  if t.negative then '-' :: t.magnitude else t.magnitude

/-- The number that the text stands for, if it is in range. -/
def value? (t : NumberText) : Option Number :=
  let (fits, d) := pushWhole true ⟨0, 0⟩ t.whole
  valueAfter? fits d t.negative t.fraction t.exponent

end NumberText

/-! ## Where digits end -/

/-- A text that does not continue digits. -/
def EndsDigits (s : List Char) : Prop :=
  ∀ c ∈ s.head?, c.isDigit = false

theorem EndsNumber.endsDigits {s : List Char} (h : EndsNumber s) : EndsDigits s :=
  fun c hc => (h c hc).1

theorem endsDigits_cons {c : Char} {s : List Char} (h : c.isDigit = false) :
    EndsDigits (c :: s) := by
  intro d hd
  obtain rfl : c = d := by simpa using hd
  exact h

theorem takeWhile_isDigit_append {digits rest : List Char} (hd : ∀ c ∈ digits, c.isDigit = true)
    (hr : EndsDigits rest) : (digits ++ rest).takeWhile Char.isDigit = digits := by
  rw [List.takeWhile_append_of_pos hd]
  cases rest with
  | nil => simp
  | cons c rest => simp [hr c (by simp)]

theorem dropWhile_isDigit_append {digits rest : List Char} (hd : ∀ c ∈ digits, c.isDigit = true)
    (hr : EndsDigits rest) : (digits ++ rest).dropWhile Char.isDigit = rest := by
  rw [List.dropWhile_append_of_pos hd]
  cases rest with
  | nil => simp
  | cons c rest => simp [hr c (by simp)]

theorem isDigits_takeWhile {s : List Char} (h : s.takeWhile Char.isDigit ≠ []) :
    IsDigits (s.takeWhile Char.isDigit) :=
  ⟨h, List.all_eq_true.1 List.all_takeWhile⟩

/-- Digits do not start with another character. -/
theorem IsDigits.append_ne_cons {s : List Char} (h : IsDigits s) {c : Char}
    (hc : c.isDigit = false) (rest t : List Char) : s ++ rest ≠ c :: t := by
  obtain ⟨hne, hdigits⟩ := h
  cases s with
  | nil => exact absurd rfl hne
  | cons d s =>
    intro heq
    obtain rfl : d = c := (List.cons.inj heq).1
    have hd := hdigits d (by simp)
    rw [hc] at hd
    exact absurd hd (by simp)

/-! ## Exponents -/

namespace ExponentText

theorem mark_eq (e : ExponentText) : e.mark = 'e' ∨ e.mark = 'E' := by
  rw [mark]
  split
  · exact .inr rfl
  · exact .inl rfl

theorem endsDigits_text (e : ExponentText) (rest : List Char) : EndsDigits (e.text ++ rest) :=
  endsDigits_cons (by rcases e.mark_eq with h | h <;> rw [h] <;> decide)

end ExponentText

/-- Whether a text starts with a minus, and the text after its sign, if it has one. -/
def splitSign : List Char → Bool × List Char
  | '+' :: s => (false, s)
  | '-' :: s => (true, s)
  | s => (false, s)

theorem readExponent?_cons (d : Decimal) (negative : Bool) (c : Char) (s : List Char) :
    readExponent? d negative (c :: s) =
      if c = 'e' ∨ c = 'E' then
        ((Text.natOfDigits? 10 ((splitSign s).2.takeWhile Char.isDigit)).bind
          (d.withExponent? negative (splitSign s).1)).map
            fun x => (.float x, (splitSign s).2.dropWhile Char.isDigit)
      else (d.toBinary64? negative).map fun x => (.float x, c :: s) := by
  rw [readExponent?.eq_def, Option.map_bind]
  rfl

theorem splitSign_digits {s : List Char} (h : IsDigits s) (rest : List Char) :
    splitSign (s ++ rest) = (false, s ++ rest) := by
  rw [splitSign]
  · exact h.append_ne_cons rfl rest
  · exact h.append_ne_cons rfl rest

theorem ExponentText.splitSign_append (e : ExponentText) (rest : List Char) :
    splitSign (e.signText ++ (e.digits ++ rest)) = (e.minus, e.digits ++ rest) := by
  obtain ⟨upperCase, sign, digits, isDigits⟩ := e
  match sign with
  | none => exact splitSign_digits isDigits rest
  | some false => rfl
  | some true => rfl

/-- An exponent is read up to a text that does not continue its digits. -/
theorem readExponent?_text (d : Decimal) (negative : Bool) (e : ExponentText) {rest : List Char}
    (hrest : EndsDigits rest) :
    readExponent? d negative (e.text ++ rest) =
      (scaledValue? d negative (some e)).map (·, rest) := by
  have htake := takeWhile_isDigit_append e.isDigits.2 hrest
  have hdrop := dropWhile_isDigit_append e.isDigits.2 hrest
  have hsign := e.splitSign_append rest
  rw [ExponentText.text, List.cons_append, List.append_assoc, readExponent?_cons,
    if_pos e.mark_eq, hsign, htake, hdrop, scaledValue?, ExponentText.value?, Option.map_map]
  rfl

/-- A missing exponent is read as such where no exponent starts. -/
theorem readExponent?_none (d : Decimal) (negative : Bool) {rest : List Char}
    (hrest : EndsNumber rest) :
    readExponent? d negative rest = (scaledValue? d negative none).map (·, rest) := by
  cases rest with
  | nil => simp [readExponent?, scaledValue?, Function.comp_def]
  | cons c rest =>
    obtain ⟨_, _, he, hE⟩ := hrest c (by simp)
    rw [readExponent?_cons, if_neg (by simp [he, hE]), scaledValue?, Option.map_map]
    rfl

/-- What is left after the sign is the text or all of it but one character. -/
theorem exists_signText (s : List Char) : ∃ sign : Option Bool,
    (splitSign s).1 = (sign == some true) ∧
      s = (match sign with
        | none => []
        | some false => ['+']
        | some true => ['-']) ++ (splitSign s).2 := by
  unfold splitSign
  split
  · exact ⟨some false, rfl, rfl⟩
  · exact ⟨some true, rfl, rfl⟩
  · exact ⟨none, rfl, rfl⟩

theorem ne_nil_of_natOfDigits? {base n : Nat} {s : List Char}
    (h : Text.natOfDigits? base s = some n) : s ≠ [] := by
  rintro rfl
  simp [Text.natOfDigits?] at h

/-- What is read as an exponent is written as one. Nothing is read only where no exponent starts. -/
theorem exists_exponentText {d : Decimal} {negative : Bool} {s rest : List Char} {n : Number}
    (h : readExponent? d negative s = some (n, rest)) :
    ∃ e : Option ExponentText, s = exponentText e ++ rest ∧ scaledValue? d negative e = some n ∧
      (e = none → ∀ c ∈ s.head?, c ≠ 'e' ∧ c ≠ 'E') := by
  have hmissing : (∀ c ∈ s.head?, c ≠ 'e' ∧ c ≠ 'E') →
      (d.toBinary64? negative).map (fun x => (Number.float x, s)) = some (n, rest) →
      ∃ e : Option ExponentText, s = exponentText e ++ rest ∧ scaledValue? d negative e = some n ∧
        (e = none → ∀ c ∈ s.head?, c ≠ 'e' ∧ c ≠ 'E') := by
    intro hs h
    obtain ⟨x, hx, heq⟩ := Option.map_eq_some_iff.1 h
    obtain ⟨rfl, rfl⟩ := Prod.mk.inj heq
    exact ⟨none, rfl, by rw [scaledValue?, hx]; rfl, fun _ => hs⟩
  cases s with
  | nil => exact hmissing (by simp) h
  | cons c s =>
    rw [readExponent?_cons] at h
    split at h
    · next hc =>
      obtain ⟨x, hx, heq⟩ := Option.map_eq_some_iff.1 h
      obtain ⟨rfl, hrest⟩ := Prod.mk.inj heq
      obtain ⟨k, hk, hx⟩ := Option.bind_eq_some_iff.1 hx
      obtain ⟨sign, hsign, hs⟩ := exists_signText s
      let e : ExponentText :=
        ⟨c == 'E', sign, _, isDigits_takeWhile (ne_nil_of_natOfDigits? hk)⟩
      refine ⟨some e, ?_, ?_, by simp⟩
      · have hmark : e.mark = c := by
          rcases hc with rfl | rfl <;> rfl
        have hdigits : e.digits ++ rest = (splitSign s).2 := by
          rw [← hrest]
          exact List.takeWhile_append_dropWhile
        rw [exponentText, ExponentText.text, hmark, List.cons_append, List.append_assoc, hdigits]
        exact congrArg (c :: ·) hs
      · have hminus : e.minus = (splitSign s).1 := hsign.symm
        have hvalue : e.value? d negative = some x := by
          rw [ExponentText.value?, hminus]
          exact Option.bind_eq_some_iff.2 ⟨k, hk, hx⟩
        rw [scaledValue?, hvalue]
        rfl
    · next hc => exact hmissing (by simpa [not_or] using hc) h

/-! ## Whole numbers and fractions -/

theorem endsDigits_exponentText (e : Option ExponentText) {rest : List Char}
    (hrest : EndsNumber rest) : EndsDigits (exponentText e ++ rest) := by
  cases e with
  | none => exact hrest.endsDigits
  | some e => exact e.endsDigits_text rest

theorem readExponent?_append (d : Decimal) (negative : Bool) (e : Option ExponentText)
    {rest : List Char} (hrest : EndsNumber rest) :
    readExponent? d negative (exponentText e ++ rest) =
      (scaledValue? d negative e).map (·, rest) := by
  cases e with
  | none => exact readExponent?_none d negative hrest
  | some e => exact readExponent?_text d negative e hrest.endsDigits

/-- What is read after the whole digits of a number. -/
def readAfter? (fits : Bool) (d : Decimal) (negative : Bool) (s : List Char) :
    Option (Number × List Char) :=
  match s with
  | '.' :: rest =>
    let fraction := rest.takeWhile Char.isDigit
    if fraction = [] then none
    else readExponent? (pushFraction d fraction) negative (rest.dropWhile Char.isDigit)
  | c :: rest =>
    if c = 'e' ∨ c = 'E' ∨ !fits then readExponent? d negative (c :: rest)
    else (integer? negative d.digits).map (·, c :: rest)
  | [] =>
    if fits then (integer? negative d.digits).map (·, []) else readExponent? d negative []

theorem readMagnitude?_eq (negative : Bool) (s : List Char) :
    readMagnitude? negative s =
      if s.takeWhile Char.isDigit = [] ∨ ((s.takeWhile Char.isDigit).length > 1 ∧
        (s.takeWhile Char.isDigit).head? = some '0') then none
      else
        readAfter? (pushWhole true ⟨0, 0⟩ (s.takeWhile Char.isDigit)).1
          (pushWhole true ⟨0, 0⟩ (s.takeWhile Char.isDigit)).2 negative
          (s.dropWhile Char.isDigit) := by
  rw [readMagnitude?.eq_def]
  rfl

theorem readAfter?_fraction (fits : Bool) (d : Decimal) (negative : Bool) {f : List Char}
    (hf : IsDigits f) {rest : List Char} (hrest : EndsDigits rest) :
    readAfter? fits d negative ('.' :: (f ++ rest)) =
      readExponent? (pushFraction d f) negative rest := by
  rw [readAfter?, takeWhile_isDigit_append hf.2 hrest, dropWhile_isDigit_append hf.2 hrest]
  exact if_neg hf.1

theorem readAfter?_exponent (fits : Bool) (d : Decimal) (negative : Bool) (e : ExponentText)
    {rest : List Char} :
    readAfter? fits d negative (e.text ++ rest) = readExponent? d negative (e.text ++ rest) := by
  have hmark := e.mark_eq
  rw [ExponentText.text, List.cons_append, readAfter?]
  · rcases hmark with h | h <;> simp [h]
  · intro hdot
    rcases hmark with h | h <;> rw [h] at hdot <;> exact absurd hdot (by decide)

theorem readAfter?_nothing (fits : Bool) (d : Decimal) (negative : Bool) {rest : List Char}
    (hrest : EndsNumber rest) :
    readAfter? fits d negative rest = (valueAfter? fits d negative none none).map (·, rest) := by
  have hnone := readExponent?_none d negative hrest
  cases rest with
  | nil => cases fits <;> simp [readAfter?, valueAfter?, hnone]
  | cons c rest =>
    obtain ⟨_, hdot, he, hE⟩ := hrest c (by simp)
    rw [readAfter?]
    · cases fits <;> simp [valueAfter?, hnone, he, hE]
    · exact hdot

theorem readAfter?_append (fits : Bool) (d : Decimal) (negative : Bool) {f : Option (List Char)}
    (hf : ∀ digits ∈ f, IsDigits digits) (e : Option ExponentText) {rest : List Char}
    (hrest : EndsNumber rest) :
    readAfter? fits d negative (fractionText f ++ (exponentText e ++ rest)) =
      (valueAfter? fits d negative f e).map (·, rest) := by
  match f, e with
  | some f, e =>
    rw [fractionText, List.cons_append,
      readAfter?_fraction fits d negative (hf f rfl) (endsDigits_exponentText e hrest),
      readExponent?_append _ _ e hrest, valueAfter?]
  | none, some e =>
    have hread := readExponent?_append d negative (some e) hrest
    rw [fractionText, List.nil_append, exponentText, readAfter?_exponent, valueAfter?]
    exact hread
  | none, none => exact readAfter?_nothing fits d negative hrest

/-- What is read after whole digits is written as a fraction or an exponent, or nothing is read. -/
theorem exists_textAfter {fits : Bool} {d : Decimal} {negative : Bool} {s rest : List Char}
    {n : Number} (h : readAfter? fits d negative s = some (n, rest)) :
    ∃ (f : Option (List Char)) (e : Option ExponentText), (∀ digits ∈ f, IsDigits digits) ∧
      s = fractionText f ++ (exponentText e ++ rest) ∧
      valueAfter? fits d negative f e = some n := by
  -- without a fraction a number that is no integer has an exponent or does not fit
  have hscaled : (fits = true → ∃ c ∈ s.head?, c = 'e' ∨ c = 'E') →
      readExponent? d negative s = some (n, rest) →
      ∃ e, s = exponentText e ++ rest ∧ valueAfter? fits d negative none e = some n := by
    intro hfits h
    obtain ⟨e, hs, hvalue, hnone⟩ := exists_exponentText h
    refine ⟨e, hs, ?_⟩
    match e with
    | some e => exact hvalue
    | none =>
      rw [valueAfter?, if_neg, hvalue]
      intro hf
      obtain ⟨c, hc, hmark⟩ := hfits hf
      have := hnone rfl c hc
      tauto
  have hinteger : fits = true → (integer? negative d.digits).map (·, s) = some (n, rest) →
      s = exponentText none ++ rest ∧ valueAfter? fits d negative none none = some n := by
    intro hfits h
    obtain ⟨m, hm, heq⟩ := Option.map_eq_some_iff.1 h
    obtain ⟨rfl, rfl⟩ := Prod.mk.inj heq
    exact ⟨rfl, by rw [valueAfter?, if_pos hfits, hm]⟩
  rw [readAfter?.eq_def] at h
  split at h
  · next t =>
    dsimp only at h
    split at h
    · simp at h
    · next hne =>
      obtain ⟨e, ht, hvalue, _⟩ := exists_exponentText h
      refine ⟨some (t.takeWhile Char.isDigit), e, ?_, ?_, hvalue⟩
      · rintro digits ⟨rfl⟩
        exact isDigits_takeWhile hne
      · rw [fractionText, List.cons_append, ← ht, List.takeWhile_append_dropWhile]
  · next c t _ =>
    split at h
    · next hc =>
      have hmark : fits = true → ∃ x ∈ (c :: t).head?, x = 'e' ∨ x = 'E' := by
        intro hf
        exact ⟨c, rfl, by simpa [hf] using hc⟩
      obtain ⟨e, hs, hvalue⟩ := hscaled hmark h
      exact ⟨none, e, by simp, hs, hvalue⟩
    · next hc =>
      have hfits : fits = true := by
        simp only [not_or, Bool.not_eq_true', Bool.not_eq_false] at hc
        exact hc.2.2
      obtain ⟨hs, hvalue⟩ := hinteger hfits h
      exact ⟨none, none, by simp, hs, hvalue⟩
  · split at h
    · next hfits =>
      obtain ⟨hs, hvalue⟩ := hinteger hfits h
      exact ⟨none, none, by simp, hs, hvalue⟩
    · next hfits =>
      obtain ⟨e, hs, hvalue⟩ := hscaled (fun hf => absurd hf hfits) h
      exact ⟨none, e, by simp, hs, hvalue⟩

/-! ## Numbers -/

/-- A magnitude is read up to a text that does not continue a number. -/
theorem readMagnitude?_append (t : NumberText) {rest : List Char} (hrest : EndsNumber rest) :
    readMagnitude? t.negative (t.magnitude ++ rest) = t.value?.map (·, rest) := by
  have hafter : EndsDigits (fractionText t.fraction ++ (exponentText t.exponent ++ rest)) := by
    cases t.fraction with
    | none => exact endsDigits_exponentText t.exponent hrest
    | some f => exact endsDigits_cons rfl
  have hwhole : ¬(t.whole = [] ∨ (t.whole.length > 1 ∧ t.whole.head? = some '0')) := by
    rintro (h | h)
    · exact t.isDigits_whole.1 h
    · exact t.noLeadingZero h
  rw [NumberText.magnitude, List.append_assoc, List.append_assoc, readMagnitude?_eq,
    takeWhile_isDigit_append t.isDigits_whole.2 hafter,
    dropWhile_isDigit_append t.isDigits_whole.2 hafter, if_neg hwhole,
    readAfter?_append _ _ _ t.isDigits_fraction _ hrest]
  rfl

theorem NumberText.magnitude_ne_cons (t : NumberText) {c : Char} (hc : c.isDigit = false)
    (rest s : List Char) : t.magnitude ++ rest ≠ c :: s := by
  rw [magnitude, List.append_assoc]
  exact t.isDigits_whole.append_ne_cons hc _ s

/-- A number is read up to a text that does not continue it. -/
theorem readNumber?_append (t : NumberText) {rest : List Char} (hrest : EndsNumber rest) :
    readNumber? (t.text ++ rest) = t.value?.map (·, rest) := by
  rw [← readMagnitude?_append t hrest, NumberText.text]
  cases hsign : t.negative with
  | true => rfl
  | false =>
    rw [if_neg (by simp), readNumber?]
    exact t.magnitude_ne_cons rfl rest

theorem exists_magnitude {negative : Bool} {s rest : List Char} {n : Number}
    (h : readMagnitude? negative s = some (n, rest)) :
    ∃ t : NumberText, t.negative = negative ∧ s = t.magnitude ++ rest ∧ t.value? = some n := by
  rw [readMagnitude?_eq] at h
  split at h
  · simp at h
  · next hwhole =>
    rw [not_or] at hwhole
    obtain ⟨f, e, hf, hs, hvalue⟩ := exists_textAfter h
    refine ⟨⟨negative, s.takeWhile Char.isDigit, f, e, isDigits_takeWhile hwhole.1, hwhole.2, hf⟩,
      rfl, ?_, hvalue⟩
    rw [NumberText.magnitude, List.append_assoc, List.append_assoc, ← hs,
      List.takeWhile_append_dropWhile]

/-- What is read as a number is written in the notation of numbers. -/
theorem exists_numberText {s rest : List Char} {n : Number}
    (h : readNumber? s = some (n, rest)) :
    ∃ t : NumberText, s = t.text ++ rest ∧ t.value? = some n := by
  rw [readNumber?.eq_def] at h
  split at h
  · next s =>
    obtain ⟨t, hsign, hs, hvalue⟩ := exists_magnitude h
    exact ⟨t, by rw [NumberText.text, if_pos hsign, hs]; rfl, hvalue⟩
  · obtain ⟨t, hsign, hs, hvalue⟩ := exists_magnitude h
    exact ⟨t, by rw [NumberText.text, if_neg (by simp [hsign]), hs], hvalue⟩

end PluginDataset.Json
