import PluginDataset.Proofs.Literal.ReadBack

/-!
# Literals as data

Openings are looked for on every line of a source text, also on lines inside a literal. A search
that takes literals as data goes on after the closing quotes of each literal that it accepts. The
two searches agree on texts in which no literal has a line that opens one of another name; on other
texts they may differ.

## Main definitions

* `Literal.topLevelBlocks` collects blocks and passes over the literals that it has accepted.
* `Literal.OpensNothing` says that accepted literals have no line that opens another one.

## Main results

* `Literal.blocks_eq_topLevelBlocks`: both searches agree where literals open nothing.
* `Literal.blocks_ne_topLevelBlocks`: a text on which they differ.
-/

namespace PluginDataset.Literal

/-! ## The search that passes over literals -/

/-- The text of a literal, and the text after its closing quotes. -/
def Opening.close (o : Opening) (rest : List Char) :
    Except BlockFault (List Char × List Char) :=
  match splitClosing? o.quote rest with
  | none => .error (.unterminated o.name)
  | some (body, after) =>
    if o.raw then .ok (body, after)
    else ((unescape body).mapError (.invalidEscape o.name)).map (·, after)

/-- The first opening of a name that is not bound. -/
def Blocks.firstOpening? (b : Blocks) (lineStart : Bool) (s : List Char) :
    Option (Opening × List Char) :=
  (openingsFrom lineStart s).find? fun found => (b.get? found.1.name).isNone

/-- The number of names that are not bound. -/
def Blocks.free (b : Blocks) : Nat :=
  [BlockName.documentation, .examples, .returns].countP fun name => (b.get? name).isNone

theorem Blocks.free_set_lt {b : Blocks} {name : BlockName} (h : b.get? name = none)
    (text : List Char) : (b.set text name).free < b.free := by
  obtain ⟨documentation, examples, returns⟩ := b
  cases name with
  | documentation =>
    obtain rfl : documentation = none := h
    simp [free, set, get?, List.countP_cons]
  | examples =>
    obtain rfl : examples = none := h
    simp [free, set, get?, List.countP_cons]
  | returns =>
    obtain rfl : returns = none := h
    simp [free, set, get?, List.countP_cons]

theorem Blocks.get?_of_firstOpening? {b : Blocks} {lineStart : Bool} {s rest : List Char}
    {o : Opening} (h : b.firstOpening? lineStart s = some (o, rest)) : b.get? o.name = none := by
  simpa using List.find?_some h

/-- The blocks of a text. After the literal of a name that is not bound the search goes on behind
the closing quotes. -/
def topLevelFrom (b : Blocks) (lineStart : Bool) (s : List Char) : Except BlockFault Blocks :=
  match h : b.firstOpening? lineStart s with
  | none => .ok b
  | some (o, rest) =>
    have _hfree : ∀ text, (b.set text o.name).free < b.free :=
      Blocks.free_set_lt (Blocks.get?_of_firstOpening? h)
    match o.close rest with
    | .error fault => .error fault
    | .ok (text, after) => topLevelFrom (b.set text o.name) false after
termination_by b.free
decreasing_by exact _hfree text

def topLevelBlocks (source : List Char) : Except BlockFault Blocks :=
  topLevelFrom {} true source

section

variable {b : Blocks} {lineStart : Bool} {s rest after text : List Char} {o : Opening}
  {fault : BlockFault}

theorem topLevelFrom_done (h : b.firstOpening? lineStart s = none) :
    topLevelFrom b lineStart s = .ok b := by
  rw [topLevelFrom]
  split
  · rfl
  · next h' => simp [h] at h'

theorem topLevelFrom_fault (h : b.firstOpening? lineStart s = some (o, rest))
    (hclose : o.close rest = .error fault) : topLevelFrom b lineStart s = .error fault := by
  rw [topLevelFrom]
  split
  · next h' => simp [h] at h'
  · next h' =>
    obtain ⟨rfl, rfl⟩ := Prod.mk.inj (Option.some.inj (h.symm.trans h'))
    rw [hclose]

theorem topLevelFrom_block (h : b.firstOpening? lineStart s = some (o, rest))
    (hclose : o.close rest = .ok (text, after)) :
    topLevelFrom b lineStart s = topLevelFrom (b.set text o.name) false after := by
  rw [topLevelFrom]
  split
  · next h' => simp [h] at h'
  · next h' =>
    obtain ⟨rfl, rfl⟩ := Prod.mk.inj (Option.some.inj (h.symm.trans h'))
    rw [hclose]

end

/-! ## Where the two searches agree -/

/-- No literal that is accepted has a line that opens one of another name that is not bound yet. -/
inductive OpensNothing : Blocks → Bool → List Char → Prop where
  | done {b : Blocks} {lineStart : Bool} {s : List Char}
    (h : b.firstOpening? lineStart s = none) : OpensNothing b lineStart s
  | fault {b : Blocks} {lineStart : Bool} {s rest : List Char} {o : Opening} {fault : BlockFault}
    (h : b.firstOpening? lineStart s = some (o, rest)) (hclose : o.close rest = .error fault) :
    OpensNothing b lineStart s
  | block {b : Blocks} {lineStart : Bool} {s inside text after : List Char} {o : Opening}
    (h : b.firstOpening? lineStart s = some (o, inside ++ after))
    (hclose : o.close (inside ++ after) = .ok (text, after))
    (hinside : ∀ found ∈ openingsIn false inside after,
      ((b.set text o.name).get? found.1.name).isSome)
    (hafter : OpensNothing (b.set text o.name) false after) : OpensNothing b lineStart s

/-- The text of a literal and its end are found together. -/
theorem Opening.text_eq_close (o : Opening) (rest : List Char) :
    o.text rest = (o.close rest).map (·.1) := by
  rw [Opening.text, body?_eq, close]
  cases splitClosing? o.quote rest with
  | none => rfl
  | some r =>
    obtain ⟨body, after⟩ := r
    dsimp only [Option.map_some]
    by_cases hraw : o.raw = true
    · rw [if_pos hraw, if_pos hraw]
      rfl
    · rw [if_neg hraw, if_neg hraw]
      cases unescape body <;> rfl

/-- What is accepted of a literal ends with its closing quotes. -/
theorem Opening.exists_of_close {o : Opening} {rest text after : List Char}
    (h : o.close rest = .ok (text, after)) : ∃ body, rest = body ++ o.quote.marks ++ after := by
  rw [close] at h
  cases hsplit : splitClosing? o.quote rest with
  | none => simp [hsplit] at h
  | some r =>
    obtain ⟨body, after'⟩ := r
    have hafter : after' = after := by
      rw [hsplit] at h
      dsimp only at h
      split at h
      · exact (Prod.mk.inj (Except.ok.inj h)).2
      · cases hbody : unescape body with
        | error e => simp [hbody, Except.mapError, Except.map] at h
        | ok text' =>
          rw [hbody] at h
          exact (Prod.mk.inj (Except.ok.inj h)).2
    refine ⟨body, ?_⟩
    rw [List.append_assoc, ← hafter]
    exact splitClosing?_eq_some hsplit

/-- After an opening the search goes on within its line. -/
theorem eq_openingsFrom_of_eq_append {lineStart : Bool} {s rest : List Char} {o : Opening}
    {before later : List (Opening × List Char)}
    (h : openingsFrom lineStart s = before ++ (o, rest) :: later) :
    later = openingsFrom false rest := by
  induction s generalizing lineStart before with
  | nil => simp [openingsFrom] at h
  | cons c s ih =>
    rw [openingsFrom] at h
    split at h
    · next found hfound =>
      cases before with
      | cons _ before => exact ih (List.cons.inj h).2
      | nil =>
        obtain ⟨rfl, hlater⟩ := List.cons.inj h
        have hstart : lineStart = true := by
          by_contra hfalse
          simp [hfalse] at hfound
        rw [hstart, if_pos rfl] at hfound
        obtain ⟨t, _, hs⟩ := Opening.parse?_eq_some_iff.1 hfound
        have hline : openingsFrom true (c :: s) = (o, rest) :: openingsFrom (c == '\n') s := by
          rw [openingsFrom, if_pos rfl, hfound]
        rw [hs, t.openingsFrom_append] at hline
        rw [← hlater, ← (List.cons.inj hline).2]
    · exact ih h

/-- Openings of names that are bound change nothing. -/
theorem foldlM_add_of_bound {b : Blocks} {found : List (Opening × List Char)}
    (h : ∀ f ∈ found, (b.get? f.1.name).isSome = true) : found.foldlM Blocks.add b = .ok b := by
  induction found with
  | nil => rfl
  | cons f found ih =>
    rw [List.forall_mem_cons] at h
    have hadd : b.add f = .ok b := if_pos h.1
    rw [List.foldlM_cons, hadd]
    exact ih h.2

/-- Both searches agree on a text of which the accepted literals open nothing. -/
theorem foldlM_eq_topLevelFrom {b : Blocks} {lineStart : Bool} {s : List Char}
    (h : OpensNothing b lineStart s) :
    (openingsFrom lineStart s).foldlM Blocks.add b = topLevelFrom b lineStart s := by
  -- an opening is reached after openings of names that are bound
  have hreach : ∀ {b : Blocks} {lineStart s o rest},
      b.firstOpening? lineStart s = some (o, rest) →
      (openingsFrom lineStart s).foldlM Blocks.add b =
        ((o.close rest).map fun r => b.set r.1 o.name).bind
          ((openingsFrom false rest).foldlM Blocks.add ·) := by
    intro b lineStart s o rest h
    obtain ⟨hfree, before, later, heq, hbound⟩ := List.find?_eq_some_iff_append.1 h
    have hpassed : before.foldlM Blocks.add b = .ok b := by
      refine foldlM_add_of_bound fun f hf => ?_
      simpa [Option.isSome_iff_ne_none] using hbound f hf
    have hadd : b.add (o, rest) = (o.close rest).map fun r => b.set r.1 o.name := by
      have hname : ¬(b.get? o.name).isSome = true := by simpa using hfree
      rw [Blocks.add, if_neg hname, o.text_eq_close]
      cases o.close rest <;> rfl
    rw [heq, List.foldlM_append, hpassed, eq_openingsFrom_of_eq_append heq]
    show (openingsFrom false rest).foldlM Blocks.add =<< b.add (o, rest) = _
    rw [hadd]
    rfl
  induction h with
  | done h =>
    rw [topLevelFrom_done h]
    refine foldlM_add_of_bound fun f hf => ?_
    have hbound := List.find?_eq_none.1 h f hf
    simpa [Option.isSome_iff_ne_none] using hbound
  | fault h hclose =>
    rw [topLevelFrom_fault h hclose, hreach h, hclose]
    rfl
  | @block b lineStart s inside text after o h hclose hinside _ ih =>
    obtain ⟨body, hbody⟩ := Opening.exists_of_close hclose
    have hstart : startsLine false inside = false := by
      rw [List.append_cancel_right hbody, startsLine_append, startsLine_marks]
    rw [topLevelFrom_block h hclose, hreach h, hclose, ← ih, openingsFrom_append, hstart]
    show (openingsIn false inside after ++ openingsFrom false after).foldlM Blocks.add _ = _
    rw [List.foldlM_append, foldlM_add_of_bound hinside]
    rfl

/-- Both searches agree on a source text of which the accepted literals open nothing. -/
theorem blocks_eq_topLevelBlocks {source : List Char} (h : OpensNothing {} true source) :
    blocks source = topLevelBlocks source :=
  foldlM_eq_topLevelFrom h

/-- A literal may have a line that opens one of its own name. -/
theorem blocks_eq_topLevelBlocks_same_name :
    OpensNothing {} true "RETURN = '''\nRETURN = \"\"\"\n'''\n".toList ∧
      blocks "RETURN = '''\nRETURN = \"\"\"\n'''\n".toList =
        topLevelBlocks "RETURN = '''\nRETURN = \"\"\"\n'''\n".toList := by
  have hopens : OpensNothing {} true "RETURN = '''\nRETURN = \"\"\"\n'''\n".toList := by
    have hfirst : ({} : Blocks).firstOpening? true
        "RETURN = '''\nRETURN = \"\"\"\n'''\n".toList =
        some (⟨.returns, false, .single⟩, "\nRETURN = \"\"\"\n'''".toList ++ ['\n']) := by
      decide +kernel
    have hclose : Opening.close ⟨.returns, false, .single⟩
        ("\nRETURN = \"\"\"\n'''".toList ++ ['\n']) =
          .ok ("\nRETURN = \"\"\"\n".toList, ['\n']) := rfl
    exact .block hfirst hclose (by decide +kernel) (.done (by decide +kernel))
  exact ⟨hopens, blocks_eq_topLevelBlocks hopens⟩

/-- A source text with a line in a literal that opens another one. -/
def quotingSource : List Char :=
  "DOCUMENTATION = '''\nmodule: demo\n'''\nEXAMPLES = \"\"\"\nRETURN = '''\n\"\"\"\n".toList

/-- A line in the body of a literal may make the search fail. -/
theorem blocks_ne_topLevelBlocks :
    blocks quotingSource = .error (.unterminated .returns) ∧
      topLevelBlocks quotingSource =
        .ok ⟨some "\nmodule: demo\n".toList, some "\nRETURN = '''\n".toList, none⟩ := by
  constructor
  · rfl
  · have hdocumentation : ({} : Blocks).firstOpening? true quotingSource =
        some (⟨.documentation, false, .single⟩,
          "\nmodule: demo\n'''\nEXAMPLES = \"\"\"\nRETURN = '''\n\"\"\"\n".toList) := by
      decide +kernel
    have hclose : Opening.close ⟨.documentation, false, .single⟩
        "\nmodule: demo\n'''\nEXAMPLES = \"\"\"\nRETURN = '''\n\"\"\"\n".toList =
        .ok ("\nmodule: demo\n".toList,
          "\nEXAMPLES = \"\"\"\nRETURN = '''\n\"\"\"\n".toList) := rfl
    have hexamples : Blocks.firstOpening? ⟨some "\nmodule: demo\n".toList, none, none⟩ false
        "\nEXAMPLES = \"\"\"\nRETURN = '''\n\"\"\"\n".toList =
        some (⟨.examples, false, .double⟩, "\nRETURN = '''\n\"\"\"\n".toList) := by
      decide +kernel
    have hclose' : Opening.close ⟨.examples, false, .double⟩
        "\nRETURN = '''\n\"\"\"\n".toList = .ok ("\nRETURN = '''\n".toList, ['\n']) := rfl
    rw [topLevelBlocks, topLevelFrom_block hdocumentation hclose]
    exact (topLevelFrom_block hexamples hclose').trans (topLevelFrom_done (by decide +kernel))

end PluginDataset.Literal
