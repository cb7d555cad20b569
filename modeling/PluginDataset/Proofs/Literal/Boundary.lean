import PluginDataset.Proofs.Literal.Closing
import PluginDataset.Proofs.Literal.Tokens

/-!
# The boundary of a literal

Read by characters, a literal ends at the first three quotes of its kind, where a backslash takes the
character after it out of consideration, whatever that is. The place that is found in the bytes of
the text is this one. It is between two characters, and no backslash before it waits for a character
that belongs to the quotes.

## Main definitions

* `Literal.IsWhole` describes the texts in which each backslash has its character.
* `Literal.ClosesAt` says where a literal ends.

## Main results

* `Literal.splitClosing?_eq_some_iff`: the characters are cut where the literal ends.
* `Literal.IsWhole.after_ne_backslash`: decoding such a text does not end behind a backslash.
* `Literal.closingOffset?_eq_some_iff`: the offset that is found in the bytes.
-/

namespace PluginDataset.Literal

open Utf8 (splitAt?_encode)

variable {q : Quote} {s start rest body after : List Char} {state state' : EscapeState} {c : Char}

/-- A text that is read to its end if each backslash takes the character after it. -/
inductive IsWhole : List Char → Prop
  | nil : IsWhole []
  | character {c : Char} {s : List Char} (hc : c ≠ '\\') (h : IsWhole s) : IsWhole (c :: s)
  | pair {c : Char} {s : List Char} (h : IsWhole s) : IsWhole ('\\' :: c :: s)

/-- A literal that is open at the start of a text ends behind `body`: there are three quotes, and at
no earlier place to which the text is read. -/
structure ClosesAt (q : Quote) (s body after : List Char) : Prop where
  text : s = body ++ (q.marks ++ after)
  isWhole : IsWhole body
  first : ∀ start rest, s = start ++ rest → IsWhole start → start.length < body.length →
    ¬ q.marks <+: rest

/-! ## Characters -/

theorem isWhole_cons_iff (hc : c ≠ '\\') : IsWhole (c :: s) ↔ IsWhole s := by
  refine ⟨fun h => ?_, .character hc⟩
  cases h with
  | character _ h => exact h
  | pair _ => exact absurd rfl hc

theorem isWhole_pair_iff : IsWhole ('\\' :: c :: s) ↔ IsWhole s := by
  refine ⟨fun h => ?_, .pair⟩
  cases h with
  | character hc _ => exact absurd rfl hc
  | pair h => exact h

/-- The character behind the last backslash is missing. -/
theorem IsWhole.not_concat (h : IsWhole start) : ¬ IsWhole (start ++ ['\\']) := by
  induction h with
  | nil =>
    rintro (_ | ⟨hc, _⟩)
    exact hc rfl
  | character hc _ ih => rwa [List.cons_append, isWhole_cons_iff hc]
  | pair _ ih => rwa [List.cons_append, List.cons_append, isWhole_pair_iff]

theorem marks_isPrefix_iff : q.marks <+: s ↔ ∃ after, after? q.marks s = some after := by
  constructor
  · rintro ⟨after, rfl⟩
    exact ⟨after, after?_eq_some_iff.2 rfl⟩
  · rintro ⟨after, hafter⟩
    exact ⟨after, (after?_eq_some_iff.1 hafter).symm⟩

/-- A character that is no backslash belongs to the body, unless the quotes start with it. -/
theorem splitClosing?_of_not_isPrefix (hc : c ≠ '\\') (hmarks : ¬ q.marks <+: c :: s) :
    splitClosing? q (c :: s) = (splitClosing? q s).map fun (body, after) => (c :: body, after) := by
  cases s with
  | nil => rfl
  | cons d s =>
    cases hafter : after? q.marks (c :: d :: s) with
    | none => rw [splitClosing?, if_neg hc, hafter]
    | some after => exact absurd (marks_isPrefix_iff.2 ⟨after, hafter⟩) hmarks

/-- If there are quotes behind a text that is read to its end, they or earlier ones are found. -/
theorem IsWhole.exists_splitClosing? (h : IsWhole start) (hmarks : q.marks <+: rest) :
    ∃ body after, splitClosing? q (start ++ rest) = some (body, after) ∧
      body.length ≤ start.length := by
  have hfound : ∀ {s : List Char}, q.marks <+: s →
      ∃ body after, splitClosing? q s = some (body, after) ∧ body.length = 0 := by
    rintro _ ⟨after, rfl⟩
    exact ⟨[], after, splitClosing?_marks q after, rfl⟩
  induction h with
  | nil =>
    obtain ⟨body, after, hsplit, hlength⟩ := hfound hmarks
    exact ⟨body, after, hsplit, by omega⟩
  | @character c start hc _ ih =>
    by_cases hearlier : q.marks <+: c :: (start ++ rest)
    · obtain ⟨body, after, hsplit, hlength⟩ := hfound hearlier
      exact ⟨body, after, hsplit, by omega⟩
    · obtain ⟨body, after, hsplit, hlength⟩ := ih
      refine ⟨c :: body, after, ?_, by simpa using hlength⟩
      rw [List.cons_append, splitClosing?_of_not_isPrefix hc hearlier, hsplit]
      rfl
  | @pair c start _ ih =>
    obtain ⟨body, after, hsplit, hlength⟩ := ih
    refine ⟨'\\' :: c :: body, after, ?_, by simpa using hlength⟩
    rw [List.cons_append, List.cons_append, splitClosing?_backslash, hsplit]
    rfl

/-- The body is read to its end. -/
theorem isWhole_of_splitClosing? (h : splitClosing? q s = some (body, after)) : IsWhole body := by
  fun_induction splitClosing? q s generalizing body with
  | case1 | case2 => simp at h
  | case3 b rest ih =>
    obtain ⟨⟨body', after'⟩, hrest, heq⟩ := Option.map_eq_some_iff.1 h
    obtain ⟨rfl, rfl⟩ := Prod.mk.inj heq
    exact .pair (ih hrest)
  | case4 =>
    obtain ⟨rfl, rfl⟩ := Prod.mk.inj (Option.some.inj h)
    exact .nil
  | case5 a b rest ha _ ih =>
    obtain ⟨⟨body', after'⟩, hrest, heq⟩ := Option.map_eq_some_iff.1 h
    obtain ⟨rfl, rfl⟩ := Prod.mk.inj heq
    exact .character ha (ih hrest)

/-- The characters are cut where the literal ends. -/
theorem splitClosing?_eq_some_iff :
    splitClosing? q s = some (body, after) ↔ ClosesAt q s body after := by
  constructor
  · intro h
    refine ⟨splitClosing?_eq_some h, isWhole_of_splitClosing? h, ?_⟩
    rintro start rest rfl hstart hlt hmarks
    obtain ⟨body', after', hsplit, hlength⟩ := hstart.exists_splitClosing? hmarks
    obtain ⟨rfl, -⟩ := Prod.mk.inj (Option.some.inj (hsplit.symm.trans h))
    omega
  · rintro ⟨htext, hbody, hfirst⟩
    obtain ⟨body', after', hsplit, hlength⟩ :=
      hbody.exists_splitClosing? (List.prefix_append q.marks after)
    rw [← htext] at hsplit
    have htext' := splitClosing?_eq_some hsplit
    -- neither body is the shorter one
    have hsame : body'.length = body.length := by
      by_contra hne
      exact hfirst body' _ htext' (isWhole_of_splitClosing? hsplit) (by omega)
        (List.prefix_append q.marks after')
    obtain ⟨rfl, hrest⟩ := List.append_inj (htext'.symm.trans htext) hsame
    obtain rfl := List.append_cancel_left hrest
    exact hsplit

/-! ## Decoding -/

theorem afterBackslash_ne_backslash (c : Char) : (afterBackslash c).1 ≠ .backslash := by
  rw [afterBackslash]
  split
  · simp
  · split <;> simp

theorem afterText_eq_backslash_iff : (afterText c).1 = .backslash ↔ c = '\\' := by
  rw [afterText]
  split <;> simp_all

/-- Outside a pair a backslash opens one, and nothing else does. -/
theorem step_eq_backslash_iff (hstate : state ≠ .backslash) {out : List Char}
    (h : state.step c = .ok (state', out)) : state' = .backslash ↔ c = '\\' := by
  have hne_of_digit : ∀ {base digit : Nat}, Text.digitValue? base c = some digit →
      Text.digitValue? base '\\' = none → c ≠ '\\' := by
    rintro base digit hdigit hslash rfl
    rw [hslash] at hdigit
    simp at hdigit
  cases state with
  | text =>
    obtain rfl := congrArg Prod.fst (Except.ok.inj h)
    exact afterText_eq_backslash_iff
  | backslash => exact absurd rfl hstate
  | octal value left =>
    have hslash : Text.digitValue? 8 '\\' = none := by decide
    rcases octal_step_cases h with ⟨digit, hdigit, rfl | ⟨-, rfl⟩⟩ | ⟨-, rfl⟩
    · simp [hne_of_digit hdigit hslash]
    · simp [hne_of_digit hdigit hslash]
    · exact afterText_eq_backslash_iff
  | hex width left value =>
    have hslash : Text.digitValue? 16 '\\' = none := by decide
    obtain ⟨digit, hdigit, rfl | ⟨-, rfl⟩⟩ := hex_step_cases h
    · simp [hne_of_digit hdigit hslash]
    · simp [hne_of_digit hdigit hslash]

/-- Decoding a text that is read to its end does not end behind a backslash. -/
theorem IsWhole.after_ne_backslash (h : IsWhole s) (hstate : state ≠ .backslash) :
    state.after s ≠ .ok .backslash := by
  induction h generalizing state with
  | nil => exact fun hafter => hstate (Except.ok.inj hafter)
  | @character c s hc _ ih =>
    rw [EscapeState.after_cons]
    cases hstep : state.step c with
    | error fault => exact nofun
    | ok next => exact ih fun hnext => hc ((step_eq_backslash_iff hstate hstep).1 hnext)
  | @pair c s _ ih =>
    rw [EscapeState.after_cons]
    cases hstep : state.step '\\' with
    | error fault => exact nofun
    | ok next =>
      obtain ⟨next, out⟩ := next
      obtain rfl := (step_eq_backslash_iff hstate hstep).2 rfl
      exact ih (afterBackslash_ne_backslash c)

/-- The offset that is found in the bytes is that of the end of the literal. The text is cut there,
and the body has no backslash at its end that waits for a character. -/
theorem closingOffset?_eq_some_iff (q : Quote) (s : List Char) (offset : Nat) :
    closingOffset? q.byte (Utf8.encode s) = some offset ↔
      ∃ body after, ClosesAt q s body after ∧ offset = (Utf8.encode body).length ∧
        Utf8.splitAt? offset s = some (body, q.marks ++ after) ∧
        (∀ start, body = start ++ ['\\'] → ¬ IsWhole start) ∧
        (∃ out, unescape body =
          EscapeState.text.after body >>= fun state => state.finish.map (out ++ ·)) ∧
        EscapeState.text.after body ≠ .ok .backslash := by
  rw [closingOffset?_encode, Option.map_eq_some_iff]
  constructor
  · rintro ⟨⟨body, after⟩, hsplit, rfl⟩
    have hcloses := splitClosing?_eq_some_iff.1 hsplit
    refine ⟨body, after, hcloses, rfl, ?_, ?_, exists_unescapeFrom_eq .text body,
      hcloses.isWhole.after_ne_backslash (by simp)⟩
    · rw [hcloses.text]
      exact splitAt?_encode body _
    · rintro start rfl hstart
      exact hstart.not_concat hcloses.isWhole
  · rintro ⟨body, after, hcloses, rfl, -⟩
    exact ⟨(body, after), splitClosing?_eq_some_iff.2 hcloses, rfl⟩

/-- The character after the backslash has two bytes, and the quotes start behind both. -/
example : closingOffset? Quote.single.byte (Utf8.encode "\\é'''".toList) = some 3 := by decide

end PluginDataset.Literal
