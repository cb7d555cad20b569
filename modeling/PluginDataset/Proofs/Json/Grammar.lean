import PluginDataset.Proofs.Json.NumberText

/-!
# The grammar of JSON

Texts that write a value, with blanks between tokens. The grammar of the standard puts no bound on
numbers and lets any code unit stand in a string. Values have neither, so that only the texts that
write a value exactly are read, within a limit on nested arrays and objects.

## Main definitions

* `Json.Reading` says what numbers and code units may stand for.
* `Json.WrittenChars` says how the characters of a string are written.
* `Json.Written` says that a text writes a value, with a bound on nesting.
* `Json.IsText` allows for blanks around a text.

## Main results

* `Json.readString?_eq_some_iff`: a string is read from exactly its written characters.
* `Json.read?_eq_some_iff`: a text is read as a value just when it writes the value.
* `Json.Written.canonical`: values that are written keep their members in order.
* `Json.read?_eq_none_iff_of_isText`: a text is refused for its nesting just when the value that it
  writes nests too deep.
-/

namespace PluginDataset

namespace Keyed

variable {α : Type}

theorem mem_of_mem_put {key : String} {value : α} {pairs : List (String × α)} {p : String × α}
    (h : p ∈ put key value pairs) : p = (key, value) ∨ p ∈ pairs := by
  induction pairs with
  | nil => exact .inl (by simpa [put, update] using h)
  | cons q rest ih =>
    obtain ⟨k, v⟩ := q
    rw [put, update] at h
    split at h
    · exact List.mem_cons.1 h
    · split at h
      · rcases List.mem_cons.1 h with h | h
        · exact .inl h
        · exact .inr (List.mem_cons_of_mem _ h)
      · rcases List.mem_cons.1 h with h | h
        · exact .inr (h ▸ List.mem_cons_self)
        · exact (ih h).imp_right (List.mem_cons_of_mem _)

theorem mem_of_mem_foldl_put {pairs sorted : List (String × α)} {p : String × α}
    (h : p ∈ pairs.foldl (fun sorted (k, v) => put k v sorted) sorted) :
    p ∈ sorted ∨ p ∈ pairs := by
  induction pairs generalizing sorted with
  | nil => exact .inl h
  | cons q rest ih =>
    rcases ih h with h | h
    · rcases mem_of_mem_put h with rfl | h
      · exact .inr List.mem_cons_self
      · exact .inl h
    · exact .inr (List.mem_cons_of_mem _ h)

/-- Sorting pairs adds none. -/
theorem mem_of_mem_ofList {pairs : List (String × α)} {p : String × α} (h : p ∈ ofList pairs) :
    p ∈ pairs :=
  (mem_of_mem_foldl_put h).resolve_left List.not_mem_nil

end Keyed

namespace Json

/-- What a text may stand for where the grammar leaves it open: which numbers a notation may stand
for, and whether one surrogate may stand for a character. -/
structure Reading where
  number : NumberText → Number → Prop
  loneSurrogates : Prop

namespace Reading

/-- Every number is in range, and surrogates come in pairs. -/
def exact : Reading where
  number t n := t.value? = some n
  loneSurrogates := False

/-- The grammar alone. A number out of range may stand for any number. -/
def standard : Reading where
  number t n := ∀ m, t.value? = some m → m = n
  loneSurrogates := True

end Reading

/-- A code unit of the range that is meant to be used in pairs. -/
def IsSurrogate (n : Nat) : Prop :=
  0xD800 ≤ n ∧ n < 0xE000

/-- How one character of a string is written: as itself, with a letter after a backslash, by its
code unit, or by a pair of code units. -/
inductive WrittenChar (ρ : Reading) : Char → List Char → Prop where
  | plain {c : Char} (hquote : c ≠ '"') (hslash : c ≠ '\\') (hcontrol : 0x20 ≤ c.toNat) :
    WrittenChar ρ c [c]
  | letter {c x : Char} (h : escapeChar? x = some c) : WrittenChar ρ c ['\\', x]
  | unit {p q r s : Char} {n : Nat} (h : codeUnit? p q r s = some n)
    (hn : IsSurrogate n → ρ.loneSurrogates) :
    WrittenChar ρ (Char.ofNat n) ['\\', 'u', p, q, r, s]
  | pair {p q r s p' q' r' s' : Char} {high low : Nat} (h : codeUnit? p q r s = some high)
    (hhigh : 0xD800 ≤ high ∧ high < 0xDC00) (h' : codeUnit? p' q' r' s' = some low)
    (hlow : 0xDC00 ≤ low ∧ low < 0xE000) :
    WrittenChar ρ (Char.ofNat (0x10000 + (high - 0xD800) * 0x400 + (low - 0xDC00)))
      ['\\', 'u', p, q, r, s, '\\', 'u', p', q', r', s']

/-- How the characters of a string are written. -/
inductive WrittenChars (ρ : Reading) : List Char → List Char → Prop where
  | nil : WrittenChars ρ [] []
  | cons {c : Char} {s t u : List Char} (hc : WrittenChar ρ c t) (hs : WrittenChars ρ s u) :
    WrittenChars ρ (c :: s) (t ++ u)

/-- Blanks between tokens. -/
def IsBlanks (s : List Char) : Prop :=
  ∀ c ∈ s, isSpace c = true

mutual

/-- A text without blanks around it writes a value with at most so many nested arrays and objects.
-/
inductive Written (ρ : Reading) : Nat → Json → List Char → Prop where
  | null {depth : Nat} : Written ρ depth .null "null".toList
  | trueWord {depth : Nat} : Written ρ depth (.bool true) "true".toList
  | falseWord {depth : Nat} : Written ρ depth (.bool false) "false".toList
  | number {depth : Nat} {t : NumberText} {n : Number} (h : ρ.number t n) :
    Written ρ depth (.number n) t.text
  | string {depth : Nat} {s t : List Char} (h : WrittenChars ρ s t) :
    Written ρ depth (.ofChars s) ('"' :: (t ++ ['"']))
  | emptyArray {depth : Nat} {b : List Char} (hb : IsBlanks b) :
    Written ρ (depth + 1) (.array []) ('[' :: (b ++ [']']))
  | array {depth : Nat} {items : List Json} {t : List Char} (h : WrittenItems ρ depth items t) :
    Written ρ (depth + 1) (.array items) ('[' :: (t ++ [']']))
  | emptyObject {depth : Nat} {b : List Char} (hb : IsBlanks b) :
    Written ρ (depth + 1) (.object []) ('\x7b' :: (b ++ ['\x7d']))
  | object {depth : Nat} {members : List (String × Json)} {t : List Char}
    (h : WrittenMembers ρ depth members t) :
    Written ρ (depth + 1) (.object (Keyed.ofList members)) ('\x7b' :: (t ++ ['\x7d']))

/-- A text writes at least one item, with commas between items and blanks around each. -/
inductive WrittenItems (ρ : Reading) : Nat → List Json → List Char → Prop where
  | last {depth : Nat} {v : Json} {b t b' : List Char} (hb : IsBlanks b) (hv : Written ρ depth v t)
    (hb' : IsBlanks b') : WrittenItems ρ depth [v] (b ++ (t ++ b'))
  | next {depth : Nat} {v : Json} {items : List Json} {b t b' u : List Char} (hb : IsBlanks b)
    (hv : Written ρ depth v t) (hb' : IsBlanks b') (hitems : WrittenItems ρ depth items u) :
    WrittenItems ρ depth (v :: items) (b ++ (t ++ (b' ++ ',' :: u)))

/-- A text writes at least one member, with commas between members, a colon after each key, and
blanks around keys and values. A key may be repeated. -/
inductive WrittenMembers (ρ : Reading) : Nat → List (String × Json) → List Char → Prop where
  | last {depth : Nat} {key : List Char} {v : Json} {a k a' b t b' : List Char} (ha : IsBlanks a)
    (hkey : WrittenChars ρ key k) (ha' : IsBlanks a') (hb : IsBlanks b) (hv : Written ρ depth v t)
    (hb' : IsBlanks b') :
    WrittenMembers ρ depth [(String.ofList key, v)]
      (a ++ '"' :: (k ++ '"' :: (a' ++ ':' :: (b ++ (t ++ b')))))
  | next {depth : Nat} {key : List Char} {v : Json} {members : List (String × Json)}
    {a k a' b t b' u : List Char} (ha : IsBlanks a) (hkey : WrittenChars ρ key k)
    (ha' : IsBlanks a') (hb : IsBlanks b) (hv : Written ρ depth v t) (hb' : IsBlanks b')
    (hmembers : WrittenMembers ρ depth members u) :
    WrittenMembers ρ depth ((String.ofList key, v) :: members)
      (a ++ '"' :: (k ++ '"' :: (a' ++ ':' :: (b ++ (t ++ (b' ++ ',' :: u))))))

end

/-! ## Strings -/

/-- A letter after a backslash is read as the character that it stands for. -/
theorem readString?_letter {c x : Char} (h : escapeChar? x = some c) (s : List Char) :
    readString? ('\\' :: x :: s) = consChar c (readString? s) := by
  rw [readString?, h]
  rintro p q r t s' rfl
  simp [escapeChar?] at h

/-- A code unit is read as its character if it needs no other one. -/
theorem readString?_unit {p q r t : Char} {n : Nat} (h : codeUnit? p q r t = some n)
    (hn : ¬IsSurrogate n) (s : List Char) :
    readString? ('\\' :: 'u' :: p :: q :: r :: t :: s) =
      consChar (Char.ofNat n) (readString? s) := by
  rw [IsSurrogate] at hn
  rw [readString?, h]
  dsimp only
  rw [if_neg (by omega), if_neg (by omega)]

/-- One character is read from its written form. -/
theorem WrittenChar.readString? {c : Char} {t : List Char} (h : WrittenChar .exact c t)
    (s : List Char) : readString? (t ++ s) = consChar c (readString? s) := by
  cases h with
  | plain hquote hslash hcontrol => exact readString?_cons hquote hslash (by omega) s
  | letter h => exact readString?_letter h s
  | unit h hn => exact readString?_unit h hn s
  | pair h hhigh h' hlow =>
    simp only [List.cons_append, List.nil_append]
    rw [PluginDataset.Json.readString?, h]
    simp only [hhigh, hlow, h', and_self, if_true]

theorem consChar_eq_some {c : Char} {r : Option (List Char × List Char)} {t rest : List Char}
    (h : consChar c r = some (t, rest)) : ∃ t', t = c :: t' ∧ r = some (t', rest) := by
  obtain ⟨⟨t', rest'⟩, hr, heq⟩ := Option.map_eq_some_iff.1 h
  obtain ⟨rfl, rfl⟩ := Prod.mk.inj heq
  exact ⟨t', rfl, hr⟩

/-- A string is read from exactly its written characters. -/
theorem readString?_eq_some_iff {s t rest : List Char} :
    readString? s = some (t, rest) ↔ ∃ u, WrittenChars .exact t u ∧ s = u ++ '"' :: rest := by
  constructor
  · -- one written character in front of what is read after it
    have hstep : ∀ {c : Char} {w s t : List Char}, WrittenChar .exact c w →
        (∀ {t'}, readString? s = some (t', rest) →
          ∃ u, WrittenChars .exact t' u ∧ s = u ++ '"' :: rest) →
        consChar c (readString? s) = some (t, rest) →
        ∃ u, WrittenChars .exact t u ∧ w ++ s = u ++ '"' :: rest := by
      intro c w s t hw ih h
      obtain ⟨t', rfl, hs⟩ := consChar_eq_some h
      obtain ⟨u, hu, rfl⟩ := ih hs
      exact ⟨w ++ u, .cons hw hu, by rw [List.append_assoc]⟩
    intro h
    fun_induction readString? s generalizing t with
    | case2 =>
      obtain ⟨rfl, rfl⟩ := Prod.mk.inj (Option.some.inj h)
      exact ⟨[], .nil, rfl⟩
    | case5 _ _ _ _ _ hunit hhigh _ _ _ _ _ _ hunit' hlow ih =>
      exact hstep (.pair hunit hhigh hunit' hlow) ih h
    | case9 _ _ _ _ _ _ hunit hhigh hlow ih =>
      exact hstep (.unit hunit (by rw [IsSurrogate]; omega)) ih h
    | case11 _ _ _ _ hletter ih => exact hstep (.letter hletter) ih h
    | case13 c rest' hquote _ hslash hcontrol ih =>
      have hne : c ≠ '\\' := by
        intro hc
        cases rest' with
        | nil => simp [readString?, consChar] at h
        | cons d rest' => exact hslash d rest' hc rfl
      exact hstep (.plain hquote hne (by omega)) ih h
    | case1 | case3 | case4 | case6 | case7 | case8 | case10 | case12 => simp at h
  · rintro ⟨u, hu, rfl⟩
    induction hu with
    | nil => rfl
    | cons hc hs ih => rw [List.append_assoc, hc.readString?, ih]; rfl

/-! ## Blanks -/

theorem skipBlanks_cons {c : Char} (h : isSpace c = false) (s : List Char) :
    skipBlanks (c :: s) = c :: s := by
  simp [skipBlanks, h]

theorem isBlanks_nil : IsBlanks [] :=
  fun _ hc => absurd hc List.not_mem_nil

theorem IsBlanks.append {a b : List Char} (ha : IsBlanks a) (hb : IsBlanks b) :
    IsBlanks (a ++ b) := by
  intro c hc
  exact (List.mem_append.1 hc).elim (ha c) (hb c)

/-- Blanks in front of a text are skipped. -/
theorem IsBlanks.skipBlanks_append {b : List Char} (hb : IsBlanks b) (s : List Char) :
    skipBlanks (b ++ s) = skipBlanks s :=
  List.dropWhile_append_of_pos hb

/-- What is skipped in front of a text is blanks. -/
theorem exists_blanks (s : List Char) : ∃ b, IsBlanks b ∧ s = b ++ skipBlanks s :=
  ⟨s.takeWhile isSpace, List.all_eq_true.1 List.all_takeWhile,
    List.takeWhile_append_dropWhile.symm⟩

theorem WrittenItems.blanks {depth : Nat} {items : List Json} {a t : List Char} (ha : IsBlanks a)
    (h : WrittenItems .exact depth items t) : WrittenItems .exact depth items (a ++ t) := by
  cases h with
  | last hb hv hb' =>
    rw [← List.append_assoc]
    exact .last (ha.append hb) hv hb'
  | next hb hv hb' hitems =>
    rw [← List.append_assoc]
    exact .next (ha.append hb) hv hb' hitems

theorem WrittenMembers.blanks {depth : Nat} {members : List (String × Json)} {a t : List Char}
    (ha : IsBlanks a) (h : WrittenMembers .exact depth members t) :
    WrittenMembers .exact depth members (a ++ t) := by
  cases h with
  | last hb hkey ha' hb' hv hb'' =>
    rw [← List.append_assoc]
    exact .last (ha.append hb) hkey ha' hb' hv hb''
  | next hb hkey ha' hb' hv hb'' hmembers =>
    rw [← List.append_assoc]
    exact .next (ha.append hb) hkey ha' hb' hv hb'' hmembers

/-! ## What is read is written -/

theorem eq_append_of_expect? {w s rest : List Char} (h : expect? w s = some rest) :
    s = w ++ rest := by
  induction w generalizing s with
  | nil => exact Option.some.inj h
  | cons c w ih =>
    cases s with
    | nil => simp [expect?] at h
    | cons d s =>
      rw [expect?] at h
      split at h
      · next hc => rw [hc, ih h]; rfl
      · simp at h

section Soundness

variable {fuel : Nat}

/-- Every value that is read with some fuel is written. -/
def ReadsWritten (fuel : Nat) : Prop :=
  ∀ {depth : Nat} {s rest : List Char} {v : Json}, readValue? fuel depth s = some (v, rest) →
    ∃ t, Written .exact depth v t ∧ s = t ++ rest

/-- All items that are read with some fuel are written. -/
def ReadsWrittenItems (fuel : Nat) : Prop :=
  ∀ {depth : Nat} {s rest : List Char} {items : List Json},
    readItems? fuel depth s = some (items, rest) →
    ∃ t, WrittenItems .exact depth items t ∧ s = t ++ ']' :: rest

/-- All members that are read with some fuel are written. -/
def ReadsWrittenMembers (fuel : Nat) : Prop :=
  ∀ {depth : Nat} {s rest : List Char} {members : List (String × Json)},
    readMembers? fuel depth s = some (members, rest) →
    ∃ t, WrittenMembers .exact depth members t ∧ s = t ++ '\x7d' :: rest

theorem written_literal {depth : Nat} {c : Char} {w s rest : List Char} {v v' : Json}
    (hwritten : Written .exact depth v (c :: w))
    (h : (expect? w s).map (v, ·) = some (v', rest)) :
    ∃ t, Written .exact depth v' t ∧ c :: s = t ++ rest := by
  obtain ⟨rest', hexpect, heq⟩ := Option.map_eq_some_iff.1 h
  obtain ⟨rfl, rfl⟩ := Prod.mk.inj heq
  exact ⟨c :: w, hwritten, by rw [eq_append_of_expect? hexpect]; rfl⟩

theorem readsWritten_succ (hitems : ReadsWrittenItems fuel) (hmembers : ReadsWrittenMembers fuel) :
    ReadsWritten (fuel + 1) := by
  intro depth s rest v h
  cases s with
  | nil => simp [readValue?] at h
  | cons c s =>
    rw [readValue?.eq_def] at h
    dsimp only at h
    split at h
    · next hc =>
      obtain ⟨⟨t, rest'⟩, hread, heq⟩ := Option.map_eq_some_iff.1 h
      obtain ⟨rfl, rfl⟩ := Prod.mk.inj heq
      obtain ⟨u, hu, rfl⟩ := readString?_eq_some_iff.1 hread
      exact ⟨_, .string hu, by simp [hc]⟩
    obtain ⟨b, hb, hs⟩ := exists_blanks s
    split at h
    · next hc =>
      match depth with
      | 0 => simp at h
      | depth + 1 =>
        dsimp only at h
        split at h
        · next rest' hclose =>
          obtain ⟨rfl, rfl⟩ := Prod.mk.inj (Option.some.inj h)
          exact ⟨_, .emptyArray hb, by rw [hc, hs, hclose]; simp⟩
        · obtain ⟨⟨items, rest'⟩, hread, heq⟩ := Option.map_eq_some_iff.1 h
          obtain ⟨rfl, rfl⟩ := Prod.mk.inj heq
          obtain ⟨t, ht, hrest⟩ := hitems hread
          exact ⟨_, .array (ht.blanks hb), by rw [hc, hs, hrest]; simp⟩
    split at h
    · next hc =>
      match depth with
      | 0 => simp at h
      | depth + 1 =>
        dsimp only at h
        split at h
        · next rest' hclose =>
          obtain ⟨rfl, rfl⟩ := Prod.mk.inj (Option.some.inj h)
          exact ⟨_, .emptyObject hb, by rw [hc, hs, hclose]; simp⟩
        · obtain ⟨⟨members, rest'⟩, hread, heq⟩ := Option.map_eq_some_iff.1 h
          obtain ⟨rfl, rfl⟩ := Prod.mk.inj heq
          obtain ⟨t, ht, hrest⟩ := hmembers hread
          exact ⟨_, .object (ht.blanks hb), by rw [hc, hs, hrest]; simp⟩
    split at h
    · next hc => exact written_literal (hc ▸ .null) h
    split at h
    · next hc => exact written_literal (hc ▸ .trueWord) h
    split at h
    · next hc => exact written_literal (hc ▸ .falseWord) h
    · obtain ⟨⟨n, rest'⟩, hread, heq⟩ := Option.map_eq_some_iff.1 h
      obtain ⟨rfl, rfl⟩ := Prod.mk.inj heq
      obtain ⟨t, ht, hvalue⟩ := exists_numberText hread
      exact ⟨t.text, .number hvalue, ht⟩

theorem readsWrittenItems_succ (hvalue : ReadsWritten fuel) (hitems : ReadsWrittenItems fuel) :
    ReadsWrittenItems (fuel + 1) := by
  intro depth s rest items h
  rw [readItems?] at h
  split at h
  · simp at h
  · next v s' hread =>
    obtain ⟨t, ht, rfl⟩ := hvalue hread
    obtain ⟨b, hb, hs'⟩ := exists_blanks s'
    split at h
    · next rest' hclose =>
      obtain ⟨rfl, rfl⟩ := Prod.mk.inj (Option.some.inj h)
      exact ⟨_, .last isBlanks_nil ht hb, by rw [hs', hclose]; simp⟩
    · next s'' hcomma =>
      obtain ⟨⟨items, rest'⟩, hread', heq⟩ := Option.map_eq_some_iff.1 h
      obtain ⟨rfl, rfl⟩ := Prod.mk.inj heq
      obtain ⟨b', hb', hs''⟩ := exists_blanks s''
      obtain ⟨u, hu, hrest⟩ := hitems hread'
      exact ⟨_, .next isBlanks_nil ht hb (hu.blanks hb'), by rw [hs', hcomma, hs'', hrest]; simp⟩
    · simp at h

theorem readsWrittenMembers_succ (hvalue : ReadsWritten fuel)
    (hmembers : ReadsWrittenMembers fuel) : ReadsWrittenMembers (fuel + 1) := by
  intro depth s rest members h
  rw [readMembers?.eq_def] at h
  dsimp only at h
  split at h
  · next s =>
    split at h
    · simp at h
    · next key s₁ hkey =>
      obtain ⟨k, hk, rfl⟩ := readString?_eq_some_iff.1 hkey
      obtain ⟨a, ha, hs₁⟩ := exists_blanks s₁
      split at h
      · next s₂ hcolon =>
        obtain ⟨b, hb, hs₂⟩ := exists_blanks s₂
        split at h
        · simp at h
        · next v s₃ hread =>
          obtain ⟨t, ht, hvalue⟩ := hvalue hread
          obtain ⟨b', hb', hs₃⟩ := exists_blanks s₃
          split at h
          · next rest' hclose =>
            obtain ⟨rfl, rfl⟩ := Prod.mk.inj (Option.some.inj h)
            refine ⟨_, .last isBlanks_nil hk ha hb ht hb', ?_⟩
            rw [hs₁, hcolon, hs₂, hvalue, hs₃, hclose]
            simp
          · next s₄ hcomma =>
            obtain ⟨⟨members, rest'⟩, hread', heq⟩ := Option.map_eq_some_iff.1 h
            obtain ⟨rfl, rfl⟩ := Prod.mk.inj heq
            obtain ⟨a', ha', hs₄⟩ := exists_blanks s₄
            obtain ⟨u, hu, hrest⟩ := hmembers hread'
            refine ⟨_, .next isBlanks_nil hk ha hb ht hb' (hu.blanks ha'), ?_⟩
            rw [hs₁, hcolon, hs₂, hvalue, hs₃, hcomma, hs₄, hrest]
            simp
          · simp at h
      · simp at h
  · simp at h

end Soundness

theorem readsWritten (fuel : Nat) :
    ReadsWritten fuel ∧ ReadsWrittenItems fuel ∧ ReadsWrittenMembers fuel := by
  induction fuel with
  | zero =>
    refine ⟨?_, ?_, ?_⟩
    · intro depth s rest v h
      simp [readValue?] at h
    · intro depth s rest items h
      simp [readItems?] at h
    · intro depth s rest members h
      simp [readMembers?] at h
  | succ fuel ih =>
    obtain ⟨hvalue, hitems, hmembers⟩ := ih
    exact ⟨readsWritten_succ hitems hmembers, readsWrittenItems_succ hvalue hitems,
      readsWrittenMembers_succ hvalue hmembers⟩

/-! ## What is written is read -/

theorem isDigit_or_minus_ne {c : Char} (h : c.isDigit = true ∨ c = '-') :
    isSpace c = false ∧ c ≠ ']' ∧ c ≠ '"' ∧ c ≠ '[' ∧ c ≠ '\x7b' ∧ c ≠ 'n' ∧ c ≠ 't' ∧ c ≠ 'f' := by
  rcases h with h | rfl
  · refine ⟨?_, ?_, ?_, ?_, ?_, ?_, ?_, ?_⟩
    · have hne : ∀ d : Char, d.isDigit = false → c ≠ d := by
        rintro d hd rfl
        simp [h] at hd
      simp [isSpace, hne ' ' rfl, hne '\n' rfl, hne '\t' rfl, hne '\r' rfl]
    all_goals
      rintro rfl
      exact absurd h (by decide)
  · decide

/-- A number is written with a digit or a minus sign first. -/
theorem NumberText.exists_text_eq_cons (t : NumberText) :
    ∃ c s, t.text = c :: s ∧ (c.isDigit = true ∨ c = '-') := by
  rw [text]
  split
  · exact ⟨'-', _, rfl, .inr rfl⟩
  · obtain ⟨hne, hdigits⟩ := t.isDigits_whole
    cases hwhole : t.whole with
    | nil => exact absurd hwhole hne
    | cons c s =>
      refine ⟨c, s ++ (fractionText t.fraction ++ exponentText t.exponent), ?_, ?_⟩
      · rw [magnitude, hwhole, List.cons_append]
      · exact .inl (hdigits c (by simp [hwhole]))

/-- A written value starts with a character that is neither a blank nor a closing bracket. -/
theorem Written.exists_cons {depth : Nat} {v : Json} {t : List Char}
    (h : Written .exact depth v t) : ∃ c s, t = c :: s ∧ isSpace c = false ∧ c ≠ ']' := by
  cases h with
  | null => exact ⟨'n', _, rfl, rfl, by decide⟩
  | trueWord => exact ⟨'t', _, rfl, rfl, by decide⟩
  | falseWord => exact ⟨'f', _, rfl, rfl, by decide⟩
  | @number _ t _ _ =>
    obtain ⟨c, s, ht, hc⟩ := t.exists_text_eq_cons
    exact ⟨c, s, ht, (isDigit_or_minus_ne hc).1, (isDigit_or_minus_ne hc).2.1⟩
  | string h => exact ⟨'"', _, rfl, rfl, by decide⟩
  | emptyArray hb => exact ⟨'[', _, rfl, rfl, by decide⟩
  | array h => exact ⟨'[', _, rfl, rfl, by decide⟩
  | emptyObject hb => exact ⟨'\x7b', _, rfl, rfl, by decide⟩
  | object h => exact ⟨'\x7b', _, rfl, rfl, by decide⟩

/-- Blanks before a value are skipped, and nothing of the value. -/
theorem Written.skipBlanks_append {depth : Nat} {v : Json} {t b : List Char}
    (h : Written .exact depth v t) (hb : IsBlanks b) (s : List Char) :
    skipBlanks (b ++ (t ++ s)) = t ++ s := by
  obtain ⟨c, u, rfl, hc, _⟩ := h.exists_cons
  rw [hb.skipBlanks_append, List.cons_append, skipBlanks_cons hc]

/-- Blanks do not continue a number. -/
theorem IsBlanks.endsNumber_append {b s : List Char} (hb : IsBlanks b) (hs : EndsNumber s) :
    EndsNumber (b ++ s) := by
  cases b with
  | nil => exact hs
  | cons c b =>
    have hc := hb c (by simp)
    simp only [isSpace, Bool.or_eq_true, beq_iff_eq] at hc
    refine endsNumber_cons ?_
    rcases hc with ((rfl | rfl) | rfl) | rfl <;> decide

/-- The members of an object start with a quote, after blanks. -/
theorem WrittenMembers.exists_skipBlanks {depth : Nat} {members : List (String × Json)}
    {t : List Char} (h : WrittenMembers .exact depth members t) (rest : List Char) :
    ∃ s, skipBlanks (t ++ rest) = '"' :: s := by
  cases h with
  | last ha _ _ _ _ _ =>
    rw [List.append_assoc, ha.skipBlanks_append]
    exact ⟨_, skipBlanks_cons (by decide) _⟩
  | next ha _ _ _ _ _ _ =>
    rw [List.append_assoc, ha.skipBlanks_append]
    exact ⟨_, skipBlanks_cons (by decide) _⟩

theorem WrittenItems.exists_skipBlanks {depth : Nat} {items : List Json} {t : List Char}
    (h : WrittenItems .exact depth items t) (rest : List Char) :
    ∃ c s, skipBlanks (t ++ rest) = c :: s ∧ c ≠ ']' := by
  cases h with
  | last hb hv _ =>
    obtain ⟨c, s, hs, _, hc⟩ := hv.exists_cons
    rw [List.append_assoc, List.append_assoc, hv.skipBlanks_append hb, hs]
    exact ⟨c, _, rfl, hc⟩
  | next hb hv _ _ =>
    obtain ⟨c, s, hs, _, hc⟩ := hv.exists_cons
    rw [List.append_assoc, List.append_assoc, hv.skipBlanks_append hb, hs]
    exact ⟨c, _, rfl, hc⟩

section Completeness

variable {fuel depth : Nat} {s t rest : List Char} {v : Json} {items : List Json}
  {members : List (String × Json)}

theorem readValue?_numberText {t : NumberText} {n : Number} (h : t.value? = some n)
    (hrest : EndsNumber rest) :
    readValue? (fuel + 1) depth (t.text ++ rest) = some (.number n, rest) := by
  obtain ⟨c, s, htext, hc⟩ := t.exists_text_eq_cons
  obtain ⟨_, _, hquote, hbracket, hbrace, hn, ht, hf⟩ := isDigit_or_minus_ne hc
  have hread := readNumber?_append t hrest
  rw [h, htext, List.cons_append] at hread
  rw [htext, List.cons_append, readValue?.eq_def]
  dsimp only
  rw [if_neg hquote, if_neg hbracket, if_neg hbrace, if_neg hn, if_neg ht, if_neg hf, hread]
  rfl

theorem readValue?_writtenChars {s : List Char} (h : WrittenChars .exact s t) :
    readValue? (fuel + 1) depth ('"' :: (t ++ '"' :: rest)) = some (.ofChars s, rest) := by
  rw [readValue?.eq_def]
  dsimp only
  rw [if_pos rfl, readString?_eq_some_iff.2 ⟨t, h, rfl⟩]
  rfl

theorem readValue?_emptyArray {b : List Char} (hb : IsBlanks b) :
    readValue? (fuel + 1) (depth + 1) ('[' :: (b ++ ']' :: rest)) = some (.array [], rest) := by
  rw [readValue?.eq_def]
  dsimp only
  rw [if_neg (by decide), if_pos rfl, hb.skipBlanks_append, skipBlanks_cons (by decide)]
  rfl

theorem readValue?_emptyObject {b : List Char} (hb : IsBlanks b) :
    readValue? (fuel + 1) (depth + 1) ('\x7b' :: (b ++ '\x7d' :: rest)) =
      some (.object [], rest) := by
  rw [readValue?.eq_def]
  dsimp only
  rw [if_neg (by decide), if_neg (by decide), if_pos rfl, hb.skipBlanks_append,
    skipBlanks_cons (by decide)]
  rfl

/-- An array is read from items that start with no closing bracket. -/
theorem readValue?_items {c : Char} (hc : c ≠ ']') (hs : skipBlanks s = c :: t)
    (h : readItems? fuel depth (c :: t) = some (items, rest)) :
    readValue? (fuel + 1) (depth + 1) ('[' :: s) = some (.array items, rest) := by
  rw [readValue?.eq_def]
  dsimp only
  rw [if_neg (by decide), if_pos rfl, hs]
  split
  · next heq => exact absurd (List.cons.inj heq).1 hc
  · rw [h]
    rfl

theorem readValue?_members (hs : skipBlanks s = '"' :: t)
    (h : readMembers? fuel depth ('"' :: t) = some (members, rest)) :
    readValue? (fuel + 1) (depth + 1) ('\x7b' :: s) =
      some (.object (Keyed.ofList members), rest) := by
  rw [readValue?.eq_def]
  dsimp only
  rw [if_neg (by decide), if_neg (by decide), if_pos rfl, hs]
  split
  · next heq => exact absurd (List.cons.inj heq).1 (by decide)
  · rw [h]
    rfl

/-- A member is read up to its value. What comes after the value decides whether it is the last. -/
theorem readMembers?_member {key k a u : List Char} (hkey : WrittenChars .exact key k)
    (ha : IsBlanks a) (hv : readValue? fuel depth (skipBlanks s) = some (v, u)) :
    (skipBlanks u = '\x7d' :: rest →
      readMembers? (fuel + 1) depth ('"' :: (k ++ '"' :: (a ++ ':' :: s))) =
        some ([(String.ofList key, v)], rest)) ∧
    (skipBlanks u = ',' :: rest →
      readMembers? (fuel + 1) depth ('"' :: (k ++ '"' :: (a ++ ':' :: s))) =
        (readMembers? fuel depth (skipBlanks rest)).map
          fun r => ((String.ofList key, v) :: r.1, r.2)) := by
  have hread : readString? (k ++ '"' :: (a ++ ':' :: s)) = some (key, a ++ ':' :: s) :=
    readString?_eq_some_iff.2 ⟨k, hkey, rfl⟩
  have hcolon : skipBlanks (a ++ ':' :: s) = ':' :: s := by
    rw [ha.skipBlanks_append, skipBlanks_cons (by decide)]
  constructor
  all_goals
    intro hend
    rw [readMembers?]
    simp only [hread, hcolon, hv, hend]

end Completeness

mutual

/-- A written value is read up to a text that does not continue a number. -/
theorem readValue?_of_written {depth : Nat} {v : Json} {t : List Char}
    (h : Written .exact depth v t) {fuel : Nat} (hfuel : t.length ≤ fuel) {rest : List Char}
    (hrest : EndsNumber rest) :
    readValue? fuel depth (t ++ rest) = some (v, rest) := by
  obtain ⟨c, s, hcons, _⟩ := h.exists_cons
  obtain ⟨fuel, rfl⟩ : ∃ n, fuel = n + 1 := ⟨fuel - 1, by simp [hcons] at hfuel; omega⟩
  clear hcons
  match h with
  | .null | .trueWord | .falseWord => simp [readValue?, expect?]
  | .number hn => exact readValue?_numberText hn hrest
  | .string hs =>
    rw [List.cons_append, List.append_assoc]
    exact readValue?_writtenChars hs
  | .emptyArray hb =>
    rw [List.cons_append, List.append_assoc]
    exact readValue?_emptyArray hb
  | @Written.array _ depth items t hitems =>
    have hlength : t.length < fuel := by
      simp only [List.length_cons, List.length_append] at hfuel
      omega
    have hread := readItems?_of_written hitems hlength rest
    obtain ⟨c, u, hs, hc⟩ := hitems.exists_skipBlanks (']' :: rest)
    rw [hs] at hread
    rw [List.cons_append, List.append_assoc]
    exact readValue?_items hc hs hread
  | .emptyObject hb =>
    rw [List.cons_append, List.append_assoc]
    exact readValue?_emptyObject hb
  | @Written.object _ depth members t hmembers =>
    have hlength : t.length < fuel := by
      simp only [List.length_cons, List.length_append] at hfuel
      omega
    have hread := readMembers?_of_written hmembers hlength rest
    obtain ⟨u, hs⟩ := hmembers.exists_skipBlanks ('\x7d' :: rest)
    rw [hs] at hread
    rw [List.cons_append, List.append_assoc]
    exact readValue?_members hs hread

/-- Written items are read up to the closing bracket. -/
theorem readItems?_of_written {depth : Nat} {items : List Json} {t : List Char}
    (h : WrittenItems .exact depth items t) {fuel : Nat} (hfuel : t.length < fuel)
    (rest : List Char) :
    readItems? fuel depth (skipBlanks (t ++ ']' :: rest)) = some (items, rest) := by
  obtain ⟨fuel, rfl⟩ : ∃ n, fuel = n + 1 := ⟨fuel - 1, by omega⟩
  match h with
  | @WrittenItems.last _ depth v b t b' hb hv hb' =>
    have hlength : t.length ≤ fuel := by
      simp only [List.length_append] at hfuel
      omega
    have hend : EndsNumber (']' :: rest) := endsNumber_cons (by decide)
    have hread := readValue?_of_written hv hlength (hb'.endsNumber_append hend)
    rw [List.append_assoc, List.append_assoc, hv.skipBlanks_append hb, readItems?, hread]
    dsimp only
    rw [hb'.skipBlanks_append, skipBlanks_cons (by decide)]
    rfl
  | @WrittenItems.next _ depth v items b t b' u hb hv hb' hitems =>
    have hlength : t.length ≤ fuel ∧ u.length < fuel := by
      simp only [List.length_append, List.length_cons] at hfuel
      omega
    have hend : EndsNumber (',' :: (u ++ ']' :: rest)) := endsNumber_cons (by decide)
    have hread := readValue?_of_written hv hlength.1 (hb'.endsNumber_append hend)
    have hread' := readItems?_of_written hitems hlength.2 rest
    rw [List.append_assoc, List.append_assoc, hv.skipBlanks_append hb, List.append_assoc,
      List.cons_append, readItems?, hread]
    dsimp only
    rw [hb'.skipBlanks_append, skipBlanks_cons (by decide)]
    show (readItems? fuel depth (skipBlanks (u ++ ']' :: rest))).map _ = _
    rw [hread']
    rfl

/-- Written members are read up to the closing brace. -/
theorem readMembers?_of_written {depth : Nat} {members : List (String × Json)} {t : List Char}
    (h : WrittenMembers .exact depth members t) {fuel : Nat} (hfuel : t.length < fuel)
    (rest : List Char) :
    readMembers? fuel depth (skipBlanks (t ++ '\x7d' :: rest)) = some (members, rest) := by
  obtain ⟨fuel, rfl⟩ : ∃ n, fuel = n + 1 := ⟨fuel - 1, by omega⟩
  match h with
  | @WrittenMembers.last _ depth key v a k a' b t b' ha hkey ha' hb hv hb' =>
    have hlength : t.length ≤ fuel := by
      simp only [List.length_append, List.length_cons] at hfuel
      omega
    have hend : EndsNumber ('\x7d' :: rest) := endsNumber_cons (by decide)
    have hread := readValue?_of_written hv hlength (hb'.endsNumber_append hend)
    rw [← hv.skipBlanks_append hb] at hread
    have hclose : skipBlanks (b' ++ '\x7d' :: rest) = '\x7d' :: rest := by
      rw [hb'.skipBlanks_append, skipBlanks_cons (by decide)]
    have hmember := (readMembers?_member hkey ha' hread).1 hclose
    rw [List.append_assoc, ha.skipBlanks_append, List.cons_append, skipBlanks_cons (by decide)]
    simpa using hmember
  | @WrittenMembers.next _ depth key v members a k a' b t b' u ha hkey ha' hb hv hb' hmembers =>
    have hlength : t.length ≤ fuel ∧ u.length < fuel := by
      simp only [List.length_append, List.length_cons] at hfuel
      omega
    have hend : EndsNumber (',' :: (u ++ '\x7d' :: rest)) := endsNumber_cons (by decide)
    have hread := readValue?_of_written hv hlength.1 (hb'.endsNumber_append hend)
    rw [← hv.skipBlanks_append hb] at hread
    have hcomma : skipBlanks (b' ++ ',' :: (u ++ '\x7d' :: rest)) =
        ',' :: (u ++ '\x7d' :: rest) := by
      rw [hb'.skipBlanks_append, skipBlanks_cons (by decide)]
    have hmember := (readMembers?_member hkey ha' hread).2 hcomma
    rw [readMembers?_of_written hmembers hlength.2 rest] at hmember
    rw [List.append_assoc, ha.skipBlanks_append, List.cons_append, skipBlanks_cons (by decide)]
    simpa using hmember

end

/-! ## Texts -/

/-- A text writes a value, with blanks around it and at most so many nested arrays and objects. -/
def IsText (ρ : Reading) (limit : Nat) (v : Json) (s : List Char) : Prop :=
  ∃ b t b', IsBlanks b ∧ Written ρ limit v t ∧ IsBlanks b' ∧ s = b ++ (t ++ b')

/-- A text is read as a value just when it writes the value. -/
theorem read?_eq_some_iff {limit : Nat} {s : List Char} {v : Json} :
    read? limit s = some v ↔ IsText .exact limit v s := by
  rw [read?]
  constructor
  · intro h
    split at h
    · next v' rest hread =>
      split at h
      · next hrest =>
        obtain rfl := Option.some.inj h
        obtain ⟨b, hb, hs⟩ := exists_blanks s
        obtain ⟨t, ht, hs'⟩ := (readsWritten _).1 hread
        obtain ⟨b', hb', hrest'⟩ := exists_blanks rest
        rw [hrest, List.append_nil] at hrest'
        exact ⟨b, t, b', hb, ht, hb', by rw [← hrest', ← hs', ← hs]⟩
      · simp at h
    · simp at h
  · rintro ⟨b, t, b', hb, ht, hb', rfl⟩
    have hend : EndsNumber b' := by
      simpa using hb'.endsNumber_append endsNumber_nil
    have hblank : skipBlanks b' = [] := by
      have h := hb'.skipBlanks_append []
      rwa [List.append_nil] at h
    have hlength : t.length ≤ 2 * (b ++ (t ++ b')).length + 2 := by
      simp only [List.length_append]
      omega
    rw [ht.skipBlanks_append hb, readValue?_of_written ht hlength hend]
    exact if_pos hblank

/-! ## Readings -/

namespace Reading

/-- Every reading of one kind is a reading of the other. -/
structure Refines (ρ σ : Reading) : Prop where
  number : ∀ t n, ρ.number t n → σ.number t n
  loneSurrogates : ρ.loneSurrogates → σ.loneSurrogates

/-- The texts that are read belong to the grammar of the standard. -/
theorem exact_refines_standard : Refines exact standard where
  number _ _ h _ hm := Option.some.inj (hm.symm.trans h)
  loneSurrogates _ := trivial

variable {ρ σ : Reading}

theorem Refines.writtenChar (hρ : Refines ρ σ) {c : Char} {t : List Char}
    (h : WrittenChar ρ c t) : WrittenChar σ c t := by
  cases h with
  | plain hquote hslash hcontrol => exact .plain hquote hslash hcontrol
  | letter h => exact .letter h
  | unit h hn => exact .unit h fun hs => hρ.loneSurrogates (hn hs)
  | pair h hhigh h' hlow => exact .pair h hhigh h' hlow

theorem Refines.writtenChars (hρ : Refines ρ σ) {s t : List Char} (h : WrittenChars ρ s t) :
    WrittenChars σ s t := by
  induction h with
  | nil => exact .nil
  | cons hc _ ih => exact .cons (hρ.writtenChar hc) ih

mutual

theorem Refines.written (hρ : Refines ρ σ) {depth : Nat} {v : Json} {t : List Char}
    (h : Written ρ depth v t) : Written σ depth v t := by
  match h with
  | .null => exact .null
  | .trueWord => exact .trueWord
  | .falseWord => exact .falseWord
  | .number hn => exact .number (hρ.number _ _ hn)
  | .string hs => exact .string (hρ.writtenChars hs)
  | .emptyArray hb => exact .emptyArray hb
  | .array hitems => exact .array (hρ.writtenItems hitems)
  | .emptyObject hb => exact .emptyObject hb
  | .object hmembers => exact .object (hρ.writtenMembers hmembers)

theorem Refines.writtenItems (hρ : Refines ρ σ) {depth : Nat} {items : List Json}
    {t : List Char} (h : WrittenItems ρ depth items t) : WrittenItems σ depth items t := by
  match h with
  | .last hb hv hb' => exact .last hb (hρ.written hv) hb'
  | .next hb hv hb' hitems =>
    exact .next hb (hρ.written hv) hb' (hρ.writtenItems hitems)

theorem Refines.writtenMembers (hρ : Refines ρ σ) {depth : Nat} {members : List (String × Json)}
    {t : List Char} (h : WrittenMembers ρ depth members t) :
    WrittenMembers σ depth members t := by
  match h with
  | .last ha hkey ha' hb hv hb' =>
    exact .last ha (hρ.writtenChars hkey) ha' hb (hρ.written hv) hb'
  | .next ha hkey ha' hb hv hb' hmembers =>
    exact .next ha (hρ.writtenChars hkey) ha' hb (hρ.written hv) hb'
      (hρ.writtenMembers hmembers)

end

theorem Refines.isText (hρ : Refines ρ σ) {limit : Nat} {v : Json} {s : List Char}
    (h : IsText ρ limit v s) : IsText σ limit v s := by
  obtain ⟨b, t, b', hb, ht, hb', hs⟩ := h
  exact ⟨b, t, b', hb, hρ.written ht, hb', hs⟩

end Reading

/-! ## Order of members -/

theorem canonicalMembers_iff {members : List (String × Json)} :
    CanonicalMembers members ↔ ∀ p ∈ members, p.2.Canonical := by
  induction members with
  | nil => simp [CanonicalMembers]
  | cons p rest ih => simp [CanonicalMembers, ih]

theorem canonical_object_nil : Canonical (.object []) :=
  ⟨.nil, trivial⟩

theorem canonical_object_ofList {members : List (String × Json)} (h : CanonicalMembers members) :
    Canonical (.object (Keyed.ofList members)) := by
  refine ⟨Keyed.ascending_ofList members, canonicalMembers_iff.2 fun p hp => ?_⟩
  exact canonicalMembers_iff.1 h p (Keyed.mem_of_mem_ofList hp)

mutual

/-- The members of a written value stand in ascending order of distinct keys. -/
theorem Written.canonical {ρ : Reading} {depth : Nat} {v : Json} {t : List Char}
    (h : Written ρ depth v t) :
    v.Canonical := by
  match h with
  | .null | .trueWord | .falseWord | .number _ | .string _ => trivial
  | .emptyArray _ => trivial
  | .array hitems => exact hitems.canonical
  | .emptyObject _ => exact canonical_object_nil
  | .object hmembers => exact canonical_object_ofList hmembers.canonical

theorem WrittenItems.canonical {ρ : Reading} {depth : Nat} {items : List Json} {t : List Char}
    (h : WrittenItems ρ depth items t) : CanonicalItems items := by
  match h with
  | .last _ hv _ => exact ⟨hv.canonical, trivial⟩
  | .next _ hv _ hitems => exact ⟨hv.canonical, hitems.canonical⟩

theorem WrittenMembers.canonical {ρ : Reading} {depth : Nat} {members : List (String × Json)}
    {t : List Char} (h : WrittenMembers ρ depth members t) : CanonicalMembers members := by
  match h with
  | .last _ _ _ _ hv _ => exact ⟨hv.canonical, trivial⟩
  | .next _ _ _ _ hv _ hmembers => exact ⟨hv.canonical, hmembers.canonical⟩

end

/-! ## Nesting -/

theorem depth_le_depthMembers {members : List (String × Json)} {p : String × Json}
    (h : p ∈ members) : p.2.depth ≤ depthMembers members := by
  induction members with
  | nil => exact absurd h List.not_mem_nil
  | cons q rest ih =>
    rw [depthMembers]
    rcases List.mem_cons.1 h with rfl | h
    · exact Nat.le_max_left _ _
    · exact Nat.le_trans (ih h) (Nat.le_max_right _ _)

theorem depthMembers_le {members : List (String × Json)} {n : Nat}
    (h : ∀ p ∈ members, p.2.depth ≤ n) : depthMembers members ≤ n := by
  induction members with
  | nil => exact Nat.zero_le n
  | cons p rest ih =>
    rw [List.forall_mem_cons] at h
    exact Nat.max_le.2 ⟨h.1, ih h.2⟩

mutual

/-- No written value nests deeper than its bound. -/
theorem Written.depth_le {ρ : Reading} {depth : Nat} {v : Json} {t : List Char}
    (h : Written ρ depth v t) : v.depth ≤ depth := by
  match h with
  | .null | .trueWord | .falseWord | .number _ | .string _ => exact Nat.zero_le _
  | .emptyArray _ | .emptyObject _ => exact Nat.succ_le_succ (Nat.zero_le _)
  | .array hitems => exact Nat.succ_le_succ hitems.depth_le
  | .object hmembers =>
    refine Nat.succ_le_succ (depthMembers_le fun p hp => ?_)
    have hle := depth_le_depthMembers (Keyed.mem_of_mem_ofList hp)
    exact Nat.le_trans hle hmembers.depth_le

theorem WrittenItems.depth_le {ρ : Reading} {depth : Nat} {items : List Json} {t : List Char}
    (h : WrittenItems ρ depth items t) : depthItems items ≤ depth := by
  match h with
  | .last _ hv _ => exact Nat.max_le.2 ⟨hv.depth_le, Nat.zero_le _⟩
  | .next _ hv _ hitems => exact Nat.max_le.2 ⟨hv.depth_le, hitems.depth_le⟩

theorem WrittenMembers.depth_le {ρ : Reading} {depth : Nat} {members : List (String × Json)}
    {t : List Char} (h : WrittenMembers ρ depth members t) : depthMembers members ≤ depth := by
  match h with
  | .last _ _ _ _ hv _ => exact Nat.max_le.2 ⟨hv.depth_le, Nat.zero_le _⟩
  | .next _ _ _ _ hv _ hmembers => exact Nat.max_le.2 ⟨hv.depth_le, hmembers.depth_le⟩

end

mutual

/-- A larger bound does not change what is written. -/
theorem Written.mono {ρ : Reading} {depth depth' : Nat} {v : Json} {t : List Char}
    (h : Written ρ depth v t) (hle : depth ≤ depth') : Written ρ depth' v t := by
  match h with
  | .null => exact .null
  | .trueWord => exact .trueWord
  | .falseWord => exact .falseWord
  | .number hn => exact .number hn
  | .string hs => exact .string hs
  | .emptyArray hb =>
    obtain ⟨k, rfl⟩ : ∃ k, depth' = k + 1 := ⟨depth' - 1, by omega⟩
    exact .emptyArray hb
  | .array hitems =>
    obtain ⟨k, rfl⟩ : ∃ k, depth' = k + 1 := ⟨depth' - 1, by omega⟩
    exact .array (hitems.mono (Nat.le_of_succ_le_succ hle))
  | .emptyObject hb =>
    obtain ⟨k, rfl⟩ : ∃ k, depth' = k + 1 := ⟨depth' - 1, by omega⟩
    exact .emptyObject hb
  | .object hmembers =>
    obtain ⟨k, rfl⟩ : ∃ k, depth' = k + 1 := ⟨depth' - 1, by omega⟩
    exact .object (hmembers.mono (Nat.le_of_succ_le_succ hle))

theorem WrittenItems.mono {ρ : Reading} {depth depth' : Nat} {items : List Json} {t : List Char}
    (h : WrittenItems ρ depth items t) (hle : depth ≤ depth') : WrittenItems ρ depth' items t := by
  match h with
  | .last hb hv hb' => exact .last hb (hv.mono hle) hb'
  | .next hb hv hb' hitems => exact .next hb (hv.mono hle) hb' (hitems.mono hle)

theorem WrittenMembers.mono {ρ : Reading} {depth depth' : Nat} {members : List (String × Json)}
    {t : List Char} (h : WrittenMembers ρ depth members t) (hle : depth ≤ depth') :
    WrittenMembers ρ depth' members t := by
  match h with
  | .last ha hkey ha' hb hv hb' => exact .last ha hkey ha' hb (hv.mono hle) hb'
  | .next ha hkey ha' hb hv hb' hmembers =>
    exact .next ha hkey ha' hb (hv.mono hle) hb' (hmembers.mono hle)

end

/-- A text that writes a value is read within a limit just when the value nests no deeper. -/
theorem read?_eq_none_iff_of_isText {limit : Nat} {v : Json} {s : List Char}
    (h : IsText .exact v.depth v s) : read? limit s = none ↔ limit < v.depth := by
  obtain ⟨b, t, b', hb, ht, hb', rfl⟩ := h
  constructor
  · intro hnone
    refine Nat.lt_of_not_le fun hle => ?_
    have hread := read?_eq_some_iff.2 ⟨b, t, b', hb, ht.mono hle, hb', rfl⟩
    rw [hnone] at hread
    simp at hread
  · intro hlt
    refine Option.eq_none_iff_forall_not_mem.2 fun w hw => ?_
    obtain ⟨a, u, a', ha, hu, ha', heq⟩ := read?_eq_some_iff.1 hw
    -- both are read within the depth of the value, so that they are the same value
    have hread := read?_eq_some_iff.2 ⟨b, t, b', hb, ht, hb', rfl⟩
    have hread' := read?_eq_some_iff.2 ⟨a, u, a', ha, hu.mono (Nat.le_of_lt hlt), ha', heq⟩
    obtain rfl := Option.some.inj (hread.symm.trans hread')
    exact Nat.not_le_of_lt hlt hu.depth_le

end Json

end PluginDataset
