import PluginDataset.Fault
import PluginDataset.Proofs.Literal.Spelling

/-!
# Tokens of a literal

A body is read from left to right in tokens: a character, or a backslash with the character after
it and the digits that belong to the two. Where a token ends depends on what comes after it only for
octal digits, of which there are as many as there can be. Decoding fails exactly if this reading
comes to a hexadecimal escape that lacks digits or whose number is no character. The numbers that
are added up on the way stay below 2 ^ 32.

## Main definitions

* `Literal.IsToken` describes a token, `Literal.ReadsTo` what tokens leave of a body.
* `Literal.IsUnusable` describes the escapes that cannot be decoded.
* `Literal.EscapeState.after` is the state after some characters.
* `Literal.EscapeState.FitsWord` says that one more digit can be added within 32 bits.

## Main results

* `Literal.IsToken.unescapeFrom_append`: a token is decoded, whatever comes after it.
* `Literal.exists_unescapeFrom_eq`: decoding goes from state to state.
* `Literal.token_cases`: what is left of a body starts with a token or an unusable escape.
* `Literal.EscapeState.InRange.after`: numbers stay within three octal or eight hexadecimal digits.
* `Literal.unescape_eq_error_iff`: the bodies that are refused, and why.
-/

namespace PluginDataset.Literal

variable {state state' : EscapeState} {fault : EscapeFault} {c : Char}
  {s rest token digits : List Char} {value left width code : Nat} {hexWidth : HexWidth}

/-! ## Tokens -/

/-- A number that no character has: a surrogate, or one beyond the last code point. -/
def IsNoCharacter (code : Nat) : Prop :=
  (0xD800 ≤ code ∧ code ≤ 0xDFFF) ∨ 0x10FFFF < code

/-- Exactly as many digits in base sixteen as a width has, and their number. -/
def IsHexNumber (width : HexWidth) (digits : List Char) (code : Nat) : Prop :=
  digits.length = width.toNat ∧ Text.natOfDigits? 16 digits = some code

def IsOctalDigit (c : Char) : Prop :=
  (Text.digitValue? 8 c).isSome

/-- A token of a body, with `rest` after it. -/
inductive IsToken : (token rest : List Char) → Prop
  | character {c : Char} {rest : List Char} (hc : c ≠ '\\') : IsToken [c] rest
  | pair {c : Char} {rest : List Char} (hletter : ∀ width : HexWidth, c ≠ width.letter)
      (hdigit : ¬ IsOctalDigit c) : IsToken ['\\', c] rest
  | octal {digits rest : List Char} (hdigits : ∀ c ∈ digits, IsOctalDigit c) (hne : digits ≠ [])
      (hlength : digits.length ≤ 3)
      (hend : digits.length < 3 → ∀ c ∈ rest.head?, ¬ IsOctalDigit c) :
      IsToken ('\\' :: digits) rest
  | hex {width : HexWidth} {digits rest : List Char} {code : Nat}
      (hnumber : IsHexNumber width digits code) (hcode : ¬ IsNoCharacter code) :
      IsToken ('\\' :: width.letter :: digits) rest

/-- A body is read, token by token, up to a rest. -/
inductive ReadsTo : (body rest : List Char) → Prop
  | refl (s : List Char) : ReadsTo s s
  | token {token rest s : List Char} (htoken : IsToken token rest) (hrest : ReadsTo rest s) :
      ReadsTo (token ++ rest) s

/-- A hexadecimal escape at the start of a text that lacks digits, or that has the number of no
character. -/
inductive IsUnusable : EscapeFault → List Char → Prop
  | truncated {width : HexWidth} {rest : List Char}
      (hdigits : ∀ digits code, IsHexNumber width digits code → ¬ digits <+: rest) :
      IsUnusable (.truncated width.toNat) ('\\' :: width.letter :: rest)
  | outOfRange {width : HexWidth} {digits rest : List Char} {code : Nat}
      (hnumber : IsHexNumber width digits code) (hcode : IsNoCharacter code) :
      IsUnusable (.outOfRange code) ('\\' :: width.letter :: (digits ++ rest))

/-! ## Characters by number -/

theorem characterOf_eq (fault : Nat → EscapeFault) (h : ¬ IsNoCharacter code) :
    characterOf fault code = .ok (Char.ofNat code) := by
  have hvalid : code.isValidChar := by
    rw [IsNoCharacter] at h
    rw [Nat.isValidChar]
    omega
  rw [characterOf, if_pos hvalid]

theorem characterOf_eq_error (fault : Nat → EscapeFault) (h : IsNoCharacter code) :
    characterOf fault code = .error (fault code) := by
  have hinvalid : ¬ code.isValidChar := by
    rw [IsNoCharacter] at h
    rw [Nat.isValidChar]
    omega
  rw [characterOf, if_neg hinvalid]

/-- Every octal number is that of a character. -/
theorem characterOf_octal (h : value < 8 ^ 3) :
    characterOf .octalOutOfRange value = .ok (Char.ofNat value) := by
  refine characterOf_eq _ ?_
  rw [IsNoCharacter]
  omega

/-! ## Numbers on the way -/

/-- One digit or more may follow, and the number has at most three octal or eight hexadecimal digits
when all of them have been read. -/
def EscapeState.InRange : EscapeState → Prop
  | .text | .backslash => True
  | .octal value left => 1 ≤ left ∧ (value + 1) * 8 ^ left ≤ 8 ^ 3
  | .hex _ left value => 1 ≤ left ∧ (value + 1) * 16 ^ left ≤ 16 ^ 8

/-- One more digit can be added to the number that is read within 32 bits. -/
def EscapeState.FitsWord : EscapeState → Prop
  | .text | .backslash => True
  | .octal value _ => value * 8 + 7 < 2 ^ 32
  | .hex _ _ value => value * 16 + 15 < 2 ^ 32

/-- A digit takes one of the places that are left. -/
theorem addDigit_le {base d limit : Nat} (hd : d < base)
    (h : (value + 1) * base ^ (left + 1) ≤ limit) : (value * base + d + 1) * base ^ left ≤ limit :=
  calc (value * base + d + 1) * base ^ left
    _ ≤ (value * base + base) * base ^ left := Nat.mul_le_mul_right _ (by omega)
    _ = (value + 1) * base ^ (left + 1) := by
      rw [Nat.pow_succ', ← Nat.mul_assoc, Nat.succ_mul]
    _ ≤ limit := h

/-- With a place left the number itself has fewer digits than there can be. -/
theorem lt_of_places {base total : Nat} (hbase : 0 < base) (hleft : 1 ≤ left)
    (h : (value + 1) * base ^ left ≤ base ^ (total + 1)) : value < base ^ total := by
  obtain ⟨left, rfl⟩ := Nat.exists_eq_add_of_le' hleft
  have hle : (value + 1) * base ≤ base ^ total * base :=
    calc (value + 1) * base
      _ ≤ (value + 1) * base ^ (left + 1) := by
        refine Nat.mul_le_mul_left _ ?_
        rw [Nat.pow_succ']
        exact Nat.le_mul_of_pos_right _ (Nat.pow_pos hbase)
      _ ≤ base ^ (total + 1) := h
      _ = base ^ total * base := Nat.pow_succ ..
  exact Nat.le_of_mul_le_mul_right hle hbase

theorem EscapeState.InRange.fitsWord (h : state.InRange) : state.FitsWord := by
  cases state with
  | text | backslash => trivial
  | octal value left =>
    have hvalue : value < 8 ^ 2 := lt_of_places (by decide) h.1 h.2
    rw [FitsWord]
    omega
  | hex width left value =>
    have hvalue : value < 16 ^ 7 := lt_of_places (by decide) h.1 h.2
    rw [FitsWord]
    omega

theorem HexWidth.toNat_le (w : HexWidth) : 1 ≤ w.toNat ∧ w.toNat ≤ 8 := by
  cases w <;> decide

theorem inRange_afterText (c : Char) : (afterText c).1.InRange := by
  rw [afterText]
  split <;> trivial

theorem inRange_afterBackslash (c : Char) : (afterBackslash c).1.InRange := by
  rw [afterBackslash]
  split
  · trivial
  · split
    · trivial
    · next width _ hwidth =>
      obtain ⟨w, -, rfl⟩ := hexWidth?_eq_some_iff.1 hwidth
      obtain ⟨hpos, hle⟩ := w.toNat_le
      exact ⟨hpos, by simpa using Nat.pow_le_pow_right (by decide) hle⟩
    · next digit hdigit =>
      have hlt := Text.digitValue?_lt hdigit
      exact ⟨by decide, by omega⟩
    · trivial

/-- An octal escape takes a digit, to which more may come, or ends before another character. -/
theorem octal_step_cases {out : List Char}
    (h : (EscapeState.octal value left).step c = .ok (state', out)) :
    (∃ digit, Text.digitValue? 8 c = some digit ∧
        (state' = .text ∨ ¬ left ≤ 1 ∧ state' = .octal (value * 8 + digit) (left - 1))) ∨
      Text.digitValue? 8 c = none ∧ state' = (afterText c).1 := by
  cases hdigit : Text.digitValue? 8 c with
  | none =>
    rw [octal_step_end hdigit] at h
    obtain ⟨x, -, heq⟩ := map_eq_ok_iff.1 h
    exact .inr ⟨rfl, (congrArg Prod.fst heq).symm⟩
  | some digit =>
    refine .inl ⟨digit, rfl, ?_⟩
    by_cases hlast : left ≤ 1
    · rw [octal_step_last hdigit hlast] at h
      obtain ⟨x, -, heq⟩ := map_eq_ok_iff.1 h
      exact .inl (congrArg Prod.fst heq).symm
    · rw [octal_step_digit hdigit hlast] at h
      exact .inr ⟨hlast, (congrArg Prod.fst (Except.ok.inj h)).symm⟩

/-- A hexadecimal escape takes a digit, to which more may come. -/
theorem hex_step_cases {out : List Char}
    (h : (EscapeState.hex width left value).step c = .ok (state', out)) :
    ∃ digit, Text.digitValue? 16 c = some digit ∧
      (state' = .text ∨ ¬ left ≤ 1 ∧ state' = .hex width (left - 1) (value * 16 + digit)) := by
  cases hdigit : Text.digitValue? 16 c with
  | none =>
    rw [hex_step_end hdigit] at h
    simp at h
  | some digit =>
    refine ⟨digit, rfl, ?_⟩
    by_cases hlast : left ≤ 1
    · rw [hex_step_last hdigit hlast] at h
      obtain ⟨x, -, heq⟩ := map_eq_ok_iff.1 h
      exact .inl (congrArg Prod.fst heq).symm
    · rw [hex_step_digit hdigit hlast] at h
      exact .inr ⟨hlast, (congrArg Prod.fst (Except.ok.inj h)).symm⟩

/-- A step keeps the number within its digits. -/
theorem EscapeState.InRange.step (h : state.InRange) {out : List Char}
    (hstep : state.step c = .ok (state', out)) : state'.InRange := by
  cases state with
  | text =>
    obtain rfl := congrArg Prod.fst (Except.ok.inj hstep)
    exact inRange_afterText c
  | backslash =>
    obtain rfl := congrArg Prod.fst (Except.ok.inj hstep)
    exact inRange_afterBackslash c
  | octal value left =>
    obtain ⟨hleft, hvalue⟩ := h
    obtain ⟨left, rfl⟩ := Nat.exists_eq_add_of_le' hleft
    rcases octal_step_cases hstep with ⟨digit, hdigit, rfl | ⟨hmore, rfl⟩⟩ | ⟨-, rfl⟩
    · trivial
    · exact ⟨by omega, addDigit_le (Text.digitValue?_lt hdigit) hvalue⟩
    · exact inRange_afterText c
  | hex width left value =>
    obtain ⟨hleft, hvalue⟩ := h
    obtain ⟨left, rfl⟩ := Nat.exists_eq_add_of_le' hleft
    obtain ⟨digit, hdigit, rfl | ⟨hmore, rfl⟩⟩ := hex_step_cases hstep
    · trivial
    · exact ⟨by omega, addDigit_le (Text.digitValue?_lt hdigit) hvalue⟩

/-- The state after some characters, if no escape among them is found to be wrong. -/
def EscapeState.after (state : EscapeState) (s : List Char) : Except EscapeFault EscapeState :=
  s.foldlM (fun state c => (state.step c).map (·.1)) state

theorem EscapeState.after_cons (state : EscapeState) (c : Char) (s : List Char) :
    state.after (c :: s) = (state.step c).map (·.1) >>= (·.after s) :=
  List.foldlM_cons

/-- Decoding goes from state to state and ends with what the last one decides. -/
theorem exists_unescapeFrom_eq (state : EscapeState) (s : List Char) :
    ∃ out, unescapeFrom state s =
      state.after s >>= fun state' => state'.finish.map (out ++ ·) := by
  induction s generalizing state with
  | nil =>
    refine ⟨[], ?_⟩
    show state.finish = state.finish.map ([] ++ ·)
    cases state.finish <;> rfl
  | cons c s ih =>
    rw [EscapeState.after_cons]
    cases hstep : state.step c with
    | error fault =>
      refine ⟨[], ?_⟩
      rw [unescapeFrom, hstep]
      rfl
    | ok next =>
      obtain ⟨out, hout⟩ := ih next.1
      refine ⟨next.2 ++ out, ?_⟩
      rw [unescapeFrom_cons hstep, hout]
      show (next.1.after s >>= _).map (next.2 ++ ·) = next.1.after s >>= _
      cases next.1.after s with
      | error fault => rfl
      | ok last =>
        show (last.finish.map (out ++ ·)).map (next.2 ++ ·) = last.finish.map (next.2 ++ out ++ ·)
        cases last.finish <;> simp [Except.map]

/-- Numbers stay within their digits as long as the decoding goes on. -/
theorem EscapeState.InRange.after (h : state.InRange) (hafter : state.after s = .ok state') :
    state'.InRange := by
  induction s generalizing state with
  | nil =>
    obtain rfl := Except.ok.inj hafter
    exact h
  | cons c s ih =>
    rw [EscapeState.after_cons, bind_eq_ok_iff] at hafter
    obtain ⟨next, hnext, hafter⟩ := hafter
    obtain ⟨⟨next, out⟩, hstep, rfl⟩ := map_eq_ok_iff.1 hnext
    exact ih (h.step hstep) hafter

/-! ## Decoding token by token -/

theorem afterBackslash_octal {digit : Nat} (h : Text.digitValue? 8 c = some digit) :
    afterBackslash c = (.octal digit 2, []) := by
  have hall : ∀ d < 8, afterBackslash (Text.digitChar d) = (.octal d 2, []) := by decide
  have hlt := Text.digitValue?_lt h
  have hc : c = Text.digitChar digit := by
    rw [Text.digitChar, if_pos (by omega), ← Text.toNat_of_digitValue? h (by omega),
      Char.ofNat_toNat]
  rw [hc]
  exact hall digit hlt

/-- The octal digits that are left are added, and the number stands for its character. -/
theorem unescapeFrom_octalDigits (hdigits : ∀ c ∈ digits, IsOctalDigit c)
    (hstate : (EscapeState.octal value left).InRange) (hlength : digits.length ≤ left)
    (hend : digits.length < left → ∀ c ∈ rest.head?, ¬ IsOctalDigit c) :
    ∃ x, unescapeFrom (.octal value left) (digits ++ rest) =
      (unescapeFrom .text rest).map ([x] ++ ·) := by
  induction digits generalizing value left with
  | nil =>
    -- the number ends before a character that is no octal digit, or with the body
    have hvalue : value < 8 ^ 2 := lt_of_places (by decide) hstate.1 hstate.2
    have hchar : characterOf .octalOutOfRange value = .ok (Char.ofNat value) :=
      characterOf_octal (by omega)
    refine ⟨Char.ofNat value, ?_⟩
    cases rest with
    | nil =>
      rw [List.append_nil, unescapeFrom, EscapeState.finish, hchar]
      rfl
    | cons c rest =>
      have hnone : Text.digitValue? 8 c = none :=
        Option.not_isSome_iff_eq_none.1 (hend hstate.1 c rfl)
      have hstep : (EscapeState.octal value left).step c =
          .ok ((afterText c).1, Char.ofNat value :: (afterText c).2) := by
        rw [octal_step_end hnone, hchar]
        rfl
      have htext : EscapeState.text.step c = .ok ((afterText c).1, (afterText c).2) := rfl
      rw [List.nil_append, unescapeFrom_cons hstep, unescapeFrom_cons htext]
      cases unescapeFrom (afterText c).1 rest <;> rfl
  | cons d digits ih =>
    rw [List.forall_mem_cons] at hdigits
    obtain ⟨digit, hdigit⟩ := Option.isSome_iff_exists.1 hdigits.1
    rw [List.length_cons] at hlength hend
    by_cases hlast : left ≤ 1
    · have hvalue : value < 8 ^ 2 := lt_of_places (by decide) hstate.1 hstate.2
      have hlt := Text.digitValue?_lt hdigit
      have hstep : (EscapeState.octal value left).step d =
          .ok (.text, [Char.ofNat (value * 8 + digit)]) := by
        rw [octal_step_last hdigit hlast, characterOf_octal (by omega)]
        rfl
      obtain rfl : digits = [] := List.eq_nil_of_length_eq_zero (by omega)
      exact ⟨_, unescapeFrom_cons hstep rest⟩
    · have hstep : (EscapeState.octal value left).step d =
          .ok (.octal (value * 8 + digit) (left - 1), []) := octal_step_digit hdigit hlast
      rw [List.cons_append, unescapeFrom_silent hstep]
      exact ih hdigits.2 (hstate.step hstep) (by omega) fun hlt => hend (by omega)

/-- Decoding fails where a digit is owed and none comes. -/
theorem unescapeFrom_truncated (hleft : 1 ≤ left)
    (h : ∀ digits code, digits.length = left → Text.addDigits? 16 value digits = some code →
      ¬ digits <+: s) :
    unescapeFrom (.hex width left value) s = .error (.truncated width) := by
  induction s generalizing left value with
  | nil => rfl
  | cons c s ih =>
    cases hdigit : Text.digitValue? 16 c with
    | none =>
      rw [unescapeFrom, hex_step_end hdigit]
      rfl
    | some digit =>
      have hread : ∀ digits, Text.addDigits? 16 value (c :: digits) =
          Text.addDigits? 16 (value * 16 + digit) digits := by
        intro digits
        rw [Text.addDigits?, hdigit]
        rfl
      have hmore : ¬ left ≤ 1 := by
        intro hlast
        refine h [c] (value * 16 + digit) (by simp; omega) (hread []) ?_
        exact List.cons_prefix_cons.2 ⟨rfl, List.nil_prefix⟩
      rw [unescapeFrom_silent (hex_step_digit hdigit hmore)]
      refine ih (by omega) fun digits code hlength hcode hprefix => ?_
      exact h (c :: digits) code (by simp; omega) ((hread digits).trans hcode)
        (List.cons_prefix_cons.2 ⟨rfl, hprefix⟩)

/-- A pair without digits is complete. -/
theorem exists_afterBackslash (hletter : ∀ w : HexWidth, c ≠ w.letter)
    (hdigit : ¬ IsOctalDigit c) : ∃ out, afterBackslash c = (.text, out) := by
  have hwidth : hexWidth? c = none := hexWidth?_eq_none_iff.2 hletter
  have hnone : Text.digitValue? 8 c = none := Option.not_isSome_iff_eq_none.1 hdigit
  rw [afterBackslash, hwidth, hnone]
  split
  · exact ⟨_, rfl⟩
  · cases escapedLetter? c with
    | some x => exact ⟨[x], rfl⟩
    | none => exact ⟨['\\', c], rfl⟩

theorem IsHexNumber.ne_nil (h : IsHexNumber hexWidth digits code) : digits ≠ [] := by
  rintro rfl
  simp [IsHexNumber, Text.natOfDigits?] at h

theorem IsHexNumber.addDigits? (h : IsHexNumber hexWidth digits code) :
    Text.addDigits? 16 0 digits = some code := by
  have hcode := h.2
  rwa [Text.natOfDigits?] at hcode
  exact fun hnil => h.ne_nil hnil

/-- A hexadecimal escape with its digits is decoded if its number is that of a character. -/
theorem IsHexNumber.unescapeFrom (h : IsHexNumber hexWidth digits code) (rest : List Char) :
    unescapeFrom .text ('\\' :: hexWidth.letter :: (digits ++ rest)) =
      (characterOf .outOfRange code).bind fun x => (unescapeFrom .text rest).map ([x] ++ ·) := by
  rw [unescapeFrom_backslash,
    unescapeFrom_silent (step_backslash (afterBackslash_letter hexWidth)), ← h.1,
    unescapeFrom_hexDigits _ h.ne_nil h.addDigits?]

/-- A token is decoded, whatever comes after it. -/
theorem IsToken.unescapeFrom_append (h : IsToken token rest) :
    ∃ out, unescapeFrom .text (token ++ rest) = (unescapeFrom .text rest).map (out ++ ·) := by
  cases h with
  | @character c _ hc =>
    have hstep : EscapeState.step .text c = .ok (.text, [c]) := by
      rw [EscapeState.step, afterText, if_neg hc]
    exact ⟨[c], unescapeFrom_cons hstep rest⟩
  | @pair c _ hletter hdigit =>
    obtain ⟨out, hout⟩ := exists_afterBackslash hletter hdigit
    refine ⟨out, ?_⟩
    rw [List.cons_append, unescapeFrom_backslash]
    exact unescapeFrom_cons (step_backslash hout) rest
  | @octal digits _ hdigits hne hlength hend =>
    obtain ⟨d, digits, rfl⟩ := List.exists_cons_of_ne_nil hne
    rw [List.forall_mem_cons] at hdigits
    obtain ⟨digit, hdigit⟩ := Option.isSome_iff_exists.1 hdigits.1
    have hbackslash := afterBackslash_octal hdigit
    have hrange := inRange_afterBackslash d
    rw [hbackslash] at hrange
    rw [List.length_cons] at hlength hend
    obtain ⟨x, hx⟩ := unescapeFrom_octalDigits hdigits.2 hrange (by omega) fun hlt =>
      hend (by omega)
    refine ⟨[x], ?_⟩
    rw [List.cons_append, List.cons_append, unescapeFrom_backslash,
      unescapeFrom_silent (step_backslash hbackslash), hx]
  | @hex _ digits _ code hnumber hcode =>
    refine ⟨[Char.ofNat code], ?_⟩
    rw [List.cons_append, List.cons_append, hnumber.unescapeFrom, characterOf_eq _ hcode]
    rfl

/-- An unusable escape is refused, whatever comes after it. -/
theorem IsUnusable.unescapeFrom_eq (h : IsUnusable fault s) :
    unescapeFrom .text s = .error fault := by
  cases h with
  | @truncated width rest hdigits =>
    obtain ⟨hpos, -⟩ := width.toNat_le
    rw [unescapeFrom_backslash, unescapeFrom_silent (step_backslash (afterBackslash_letter width))]
    refine unescapeFrom_truncated hpos fun digits code hlength hcode => ?_
    refine hdigits digits code ⟨hlength, ?_⟩
    rwa [Text.natOfDigits?]
    rintro rfl
    rw [List.length_nil] at hlength
    omega
  | outOfRange hnumber hcode =>
    rw [hnumber.unescapeFrom, characterOf_eq_error _ hcode]
    rfl

/-! ## What can be read -/

/-- A text starts with as many octal digits as there are, up to a number of them. -/
theorem exists_octalDigits (n : Nat) (s : List Char) :
    ∃ digits rest, s = digits ++ rest ∧ (∀ c ∈ digits, IsOctalDigit c) ∧ digits.length ≤ n ∧
      (digits.length < n → ∀ c ∈ rest.head?, ¬ IsOctalDigit c) := by
  induction n generalizing s with
  | zero => exact ⟨[], s, rfl, by simp, Nat.le_refl 0, by simp⟩
  | succ n ih =>
    cases s with
    | nil => exact ⟨[], [], rfl, by simp, Nat.zero_le _, by simp⟩
    | cons c s =>
      by_cases hc : IsOctalDigit c
      · obtain ⟨digits, rest, rfl, hdigits, hlength, hend⟩ := ih s
        refine ⟨c :: digits, rest, rfl, List.forall_mem_cons.2 ⟨hc, hdigits⟩, ?_, ?_⟩
        · simpa using hlength
        · simpa using hend
      · exact ⟨[], c :: s, rfl, by simp, Nat.zero_le _, by simpa using hc⟩

/-- What is left of a body is nothing, a backslash, or starts with a token or an unusable
escape. -/
theorem token_cases (s : List Char) :
    (s = [] ∨ s = ['\\']) ∨ (∃ token rest, s = token ++ rest ∧ IsToken token rest) ∨
      ∃ fault, IsUnusable fault s := by
  match s with
  | [] => exact .inl (.inl rfl)
  | c :: s =>
    by_cases hc : c = '\\'
    · subst hc
      cases s with
      | nil => exact .inl (.inr rfl)
      | cons c s =>
        cases hwidth : hexWidth? c with
        | none =>
          by_cases hdigit : IsOctalDigit c
          · obtain ⟨digits, rest, rfl, hdigits, hlength, hend⟩ := exists_octalDigits 2 s
            have htoken : IsToken ('\\' :: c :: digits) rest := by
              refine .octal (List.forall_mem_cons.2 ⟨hdigit, hdigits⟩) (List.cons_ne_nil _ _) ?_ ?_
              · rw [List.length_cons]
                omega
              · intro hlt
                rw [List.length_cons] at hlt
                exact hend (by omega)
            exact .inr (.inl ⟨_, rest, rfl, htoken⟩)
          · have hletter := hexWidth?_eq_none_iff.1 hwidth
            exact .inr (.inl ⟨['\\', c], s, rfl, .pair hletter hdigit⟩)
        | some n =>
          obtain ⟨width, rfl, rfl⟩ := hexWidth?_eq_some_iff.1 hwidth
          by_cases hnumber : ∃ digits code, IsHexNumber width digits code ∧ digits <+: s
          · obtain ⟨digits, code, hnumber, rest, rfl⟩ := hnumber
            by_cases hcode : IsNoCharacter code
            · exact .inr (.inr ⟨_, .outOfRange hnumber hcode⟩)
            · exact .inr (.inl ⟨'\\' :: width.letter :: digits, rest, rfl, .hex hnumber hcode⟩)
          · have htruncated : IsUnusable (.truncated width.toNat) ('\\' :: width.letter :: s) :=
              .truncated fun digits code hdigits hprefix =>
                hnumber ⟨digits, code, hdigits, hprefix⟩
            exact .inr (.inr ⟨_, htruncated⟩)
    · exact .inr (.inl ⟨[c], s, rfl, .character hc⟩)

theorem IsToken.ne_nil (h : IsToken token rest) : token ≠ [] := by
  cases h <;> exact List.cons_ne_nil _ _

/-- Decoding fails with the first unusable escape that the reading comes to. -/
theorem unescapeFrom_eq_error_iff :
    unescapeFrom .text s = .error fault ↔ ∃ rest, ReadsTo s rest ∧ IsUnusable fault rest := by
  constructor
  · intro h
    induction hlength : s.length using Nat.strongRecOn generalizing s with
    | ind n ih =>
      subst hlength
      rcases token_cases s with (rfl | rfl) | ⟨token, rest, rfl, htoken⟩ | ⟨fault', hunusable⟩
      · simp [unescapeFrom, EscapeState.finish] at h
      · rw [unescapeFrom_backslash] at h
        simp [unescapeFrom, EscapeState.finish] at h
      · -- the token is decoded, so that the rest is at fault
        obtain ⟨out, hout⟩ := htoken.unescapeFrom_append
        have hrest : unescapeFrom .text rest = .error fault := by
          rw [hout] at h
          cases hrest : unescapeFrom .text rest with
          | ok text => simp [hrest, Except.map] at h
          | error fault' => simpa [hrest, Except.map] using h
        have hpos := List.length_pos_of_ne_nil htoken.ne_nil
        obtain ⟨last, hreads, hunusable⟩ := ih rest.length (by simp; omega) hrest rfl
        exact ⟨last, .token htoken hreads, hunusable⟩
      · rw [hunusable.unescapeFrom_eq] at h
        obtain rfl := Except.error.inj h
        exact ⟨s, .refl s, hunusable⟩
  · rintro ⟨rest, hreads, hunusable⟩
    induction hreads with
    | refl s => exact hunusable.unescapeFrom_eq
    | token htoken _ ih =>
      obtain ⟨out, hout⟩ := htoken.unescapeFrom_append
      rw [hout, ih hunusable]
      rfl

/-- Decoding fails exactly if the reading of a body comes to a hexadecimal escape that lacks digits
or has the number of no character. An octal escape does not fail, and the number of each escape is
added up within 32 bits. -/
theorem unescape_eq_error_iff (body : List Char) :
    (∀ fault, unescape body = .error fault ↔
        ∃ rest, ReadsTo body rest ∧ IsUnusable fault rest) ∧
      (∀ code, unescape body ≠ .error (.octalOutOfRange code)) ∧
      ∀ start state, start <+: body → EscapeState.text.after start = .ok state →
        state.FitsWord := by
  refine ⟨fun fault => unescapeFrom_eq_error_iff, fun code h => ?_, fun start state _ hafter => ?_⟩
  · obtain ⟨rest, -, hunusable⟩ := unescapeFrom_eq_error_iff.1 h
    cases hunusable
  · have hstart : EscapeState.text.InRange := trivial
    exact (hstart.after hafter).fitsWord

/-- Two digits are octal and the third is taken for text; the escape after it lacks a digit. -/
example : unescape "\\128\\x4".toList = .error (.truncated 2) := rfl

end PluginDataset.Literal
