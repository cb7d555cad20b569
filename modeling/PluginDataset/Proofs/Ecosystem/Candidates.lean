import PluginDataset.Ecosystem.Installed
import PluginDataset.Proofs.Files.Entries
import PluginDataset.Proofs.Text.Decoding

/-!
# Module names and candidates

The name of a module is what is left of the stem of its file without leading underscores. An entry
of a directory with that stem, marked as deprecated or not, stands for the same module, if it is
not passed over for one of a few reasons.

## Main definitions

* `IsModuleName` says what all names of modules have in common.
* `FileSystem.PassesOver` gives the reasons for which an entry stands for no module.

## Main results

* `FileSystem.isModuleName_of_candidate?`: the rules for candidates only give such names.
* `FileSystem.candidate?_of_isModule`: an entry with the stem of a module holds this module or none.
-/

namespace PluginDataset

/-! ## Stems -/

namespace FileName

/-- A name is cut at its last dot, if something comes before that. -/
theorem splitLastDot?_eq_some_iff {n before after : FileName} :
    splitLastDot? n = some (before, after) ↔
      n = before ++ dot :: after ∧ before ≠ [] ∧ dot ∉ after := by
  have hsplit := List.takeWhile_append_dropWhile (p := (· != dot)) (l := n.reverse)
  have hdrop : n.reverse.drop (n.reverse.takeWhile (· != dot)).length =
      n.reverse.dropWhile (· != dot) :=
    (congrArg (List.drop _) hsplit.symm).trans List.drop_left
  rw [splitLastDot?, hdrop]
  constructor
  · intro h
    cases hrest : n.reverse.dropWhile (· != dot) with
    | nil => simp [hrest] at h
    | cons b tail =>
      rw [hrest] at h hsplit
      dsimp only at h
      split at h
      · simp at h
      · next hne =>
        obtain ⟨rfl, rfl⟩ := Prod.mk.inj (Option.some.inj h)
        have hdot : b = dot := by
          have hhead := List.head?_dropWhile_not (· != dot) n.reverse
          simpa [hrest] using hhead
        refine ⟨?_, by simpa using hne, fun hmem => ?_⟩
        · have hreverse := congrArg List.reverse hsplit
          simpa [hdot] using hreverse.symm
        · have hkept := List.all_eq_true.1 List.all_takeWhile dot (List.mem_reverse.1 hmem)
          simp at hkept
  · rintro ⟨rfl, hbefore, hafter⟩
    have hreverse : (before ++ dot :: after).reverse = after.reverse ++ dot :: before.reverse := by
      simp
    have hall : ∀ b ∈ after.reverse, (b != dot) = true := by
      intro b hb
      have hne : b ≠ dot := fun heq => hafter (by simpa [heq] using hb)
      simpa using hne
    rw [hreverse, List.takeWhile_append_of_pos hall, List.dropWhile_append_of_pos hall]
    simp [hbefore]

/-- A name starts with its stem. -/
theorem stem_isPrefix (n : FileName) : n.stem <+: n := by
  rw [stem]
  split
  · next before after h => exact ⟨dot :: after, (splitLastDot?_eq_some_iff.1 h).1.symm⟩
  · exact List.prefix_rfl

/-- The stem is cut off before a dot that no other follows. -/
theorem stem_append_dot {before after : FileName} (hbefore : before ≠ [])
    (hafter : dot ∉ after) : stem (before ++ dot :: after) = before := by
  rw [stem, splitLastDot?_eq_some_iff.2 ⟨rfl, hbefore, hafter⟩]

end FileName

/-! ## Names -/

/-- A name that a module can have in the catalog: it is not empty, does not start with the mark of
deprecated modules, and has no separator. -/
structure IsModuleName (name : String) : Prop where
  ne_nil : name.toList ≠ []
  head_ne : name.toList.head? ≠ some '_'
  notMem : slash ∉ FileName.ofString name

/-- A module name starts with a character that is no underscore. -/
theorem IsModuleName.exists_cons {name : String} (h : IsModuleName name) :
    ∃ c cs, name.toList = c :: cs ∧ c ≠ '_' := by
  obtain ⟨c, cs, hcons⟩ := List.exists_cons_of_ne_nil h.ne_nil
  have hhead := h.head_ne
  rw [hcons] at hhead
  exact ⟨c, cs, hcons, by simpa using hhead⟩

/-- The stem of the file of a module is its name, perhaps with a mark in front. -/
theorem FileName.isModule_iff {name : String} {n : FileName} :
    n.isModule name = true ↔
      n.stem = Utf8.encode name.toList ∨ n.stem = Utf8.encode ('_' :: name.toList) := by
  rw [FileName.isModule]
  cases hstem : Utf8.decode? n.stem with
  | none =>
    have hne : ∀ text, n.stem ≠ Utf8.encode text := by
      intro text heq
      rw [heq, Utf8.decode?_encode] at hstem
      simp at hstem
    simp [hne]
  | some stem =>
    have hbytes := Utf8.decode?_eq_some_iff.1 hstem
    have heq : ∀ text, n.stem = Utf8.encode text ↔ stem = text := by
      intro text
      rw [← Utf8.decode?_eq_some_iff.trans eq_comm, hstem, Option.some.injEq]
    simp [heq]

/-- What is left of a text without leading underscores does not start with one. -/
theorem head?_dropWhile_underscore (text : List Char) :
    (text.dropWhile (· == '_')).head? ≠ some '_' := by
  intro h
  have := List.head?_dropWhile_not (· == '_') text
  simp [h] at this

/-- A module name that the form of an entry gives is the stem of the entry without leading
underscores. -/
theorem moduleName?_eq_some {text name : List Char} (h : moduleName? text = some name) :
    ∃ stem, Utf8.encode stem = FileName.stem (Utf8.encode text) ∧
      name = stem.dropWhile (· == '_') ∧ name ≠ [] := by
  rw [moduleName?] at h
  split at h
  · simp at h
  · split at h
    · next stem hstem =>
      split at h
      · simp at h
      · next rest hne =>
        obtain rfl := Option.some.inj h
        exact ⟨stem, Utf8.decode?_eq_some_iff.1 hstem, rfl, hne⟩
    · simp at h

/-! ## Candidates -/

namespace FileSystem

variable {fs : FileSystem} {directory : Path} {entry : FileName} {name : String}

/-- The reasons for which an entry with the stem of a module is not listed as the module. -/
inductive PassesOver (fs : FileSystem) (directory : Path) (entry : FileName) : Prop where
  | notText (h : entry.text? = none)
  | directory (h : fs.isDirectory (directory.child entry) = true)
  | hidden {text : List Char} (htext : entry.text? = some text) (h : text.head? = some '.')
  | otherName {text : List Char} (htext : entry.text? = some text) (hmark : text.head? = some '_')
    (hlink : fs.isLink (directory.child entry) = true)
  | foreign {text suffix : List Char} (htext : entry.text? = some text)
    (hsuffix : suffix ∈ foreignSuffixes) (h : endsWith text suffix = true)
  | housekeeping {text : List Char} (htext : entry.text? = some text)
    (h : text ∈ housekeepingFiles)

/-- An entry for which there is such a reason is no candidate. -/
theorem PassesOver.candidate?_eq_none (h : fs.PassesOver directory entry) :
    fs.candidate? directory entry = none := by
  rw [candidate?]
  cases h with
  | notText h => rw [h]
  | directory h => cases entry.text? <;> simp [h]
  | hidden htext h =>
    rw [htext]
    simp [moduleName?, h]
  | otherName htext hmark hlink =>
    rw [htext]
    simp [hmark, hlink]
  | foreign htext hsuffix h =>
    have hany := List.any_eq_true.2 ⟨_, hsuffix, h⟩
    rw [htext]
    simp [moduleName?, hany]
  | housekeeping htext h =>
    rw [htext]
    simp [moduleName?, h]

/-- The rules for candidates only give names of modules. -/
theorem isModuleName_of_candidate? (hentry : slash ∉ entry)
    (h : fs.candidate? directory entry = some name) : IsModuleName name := by
  rw [candidate?] at h
  split at h
  · simp at h
  · next text htext =>
    dsimp only at h
    split at h
    · simp at h
    · obtain ⟨chars, hchars, rfl⟩ := Option.map_eq_some_iff.1 h
      obtain ⟨stem, hstem, rfl, hne⟩ := moduleName?_eq_some hchars
      refine ⟨by simpa using hne, ?_, ?_⟩
      · rw [String.toList_ofList]
        exact head?_dropWhile_underscore stem
      · -- the bytes of the name end the stem, with which the entry starts
        have hsuffix : Utf8.encode (stem.dropWhile (· == '_')) <:+ Utf8.encode stem := by
          obtain ⟨marks, hmarks⟩ := List.dropWhile_suffix (l := stem) (· == '_')
          refine ⟨Utf8.encode marks, ?_⟩
          rw [← Utf8.encode_append, hmarks]
        have hstart : Utf8.encode stem <+: entry := by
          rw [hstem, Utf8.decode?_eq_some_iff.1 htext]
          exact FileName.stem_isPrefix entry
        intro hmem
        rw [FileName.ofString, String.toList_ofList] at hmem
        exact hentry (hstart.subset (hsuffix.subset hmem))

/-- Leading underscores of the stem of a module are not part of its name. -/
theorem dropWhile_underscore (hname : IsModuleName name) :
    name.toList.dropWhile (· == '_') = name.toList ∧
      ('_' :: name.toList).dropWhile (· == '_') = name.toList := by
  obtain ⟨c, cs, hcons, hc⟩ := hname.exists_cons
  rw [hcons]
  simp [hc]

/-- A text that starts with a module name, with a mark or without, does not start with two
underscores. -/
theorem isPrefixOf_underscores_eq_false (hname : IsModuleName name) {text : List Char}
    (htext : name.toList <+: text ∨ '_' :: name.toList <+: text) :
    "__".toList.isPrefixOf text = false := by
  obtain ⟨c, cs, hcons, hc⟩ := hname.exists_cons
  rw [hcons] at htext
  rcases htext with ⟨rest, rfl⟩ | ⟨rest, rfl⟩
  · simp [List.isPrefixOf, Ne.symm hc]
  · simp [List.isPrefixOf, Ne.symm hc]

/-- An entry with the stem of a module holds this module, unless it is passed over. -/
theorem candidate?_of_isModule (hname : IsModuleName name) (hentry : entry.isModule name = true) :
    fs.candidate? directory entry = some name ∨ fs.PassesOver directory entry := by
  by_cases hover : fs.PassesOver directory entry
  · exact .inr hover
  · left
    cases htext : entry.text? with
    | none => exact absurd (.notText htext) hover
    | some text =>
      have hbytes : Utf8.encode text = entry := Utf8.decode?_eq_some_iff.1 htext
      -- a test of the rules that succeeds is a reason to pass the entry over
      have hdirectory : fs.isDirectory (directory.child entry) = false :=
        Bool.eq_false_iff.2 fun h => hover (.directory h)
      have hmark : (text.head? == some '_' && fs.isLink (directory.child entry)) = false := by
        refine Bool.eq_false_iff.2 fun h => ?_
        simp only [Bool.and_eq_true, beq_iff_eq] at h
        exact hover (.otherName htext h.1 h.2)
      have hhidden : (text.head? == some '.') = false :=
        Bool.eq_false_iff.2 fun h => hover (.hidden htext (by simpa using h))
      have hforeign : foreignSuffixes.any (endsWith text) = false := by
        refine Bool.eq_false_iff.2 fun h => ?_
        obtain ⟨suffix, hsuffix, h⟩ := List.any_eq_true.1 h
        exact hover (.foreign htext hsuffix h)
      have hhousekeeping : housekeepingFiles.contains text = false :=
        Bool.eq_false_iff.2 fun h => hover (.housekeeping htext (by simpa using h))
      have hname? : moduleName? text = some name.toList := by
        obtain ⟨stem, hstem, hdrop, hstart⟩ : ∃ stem, FileName.stem entry = Utf8.encode stem ∧
            stem.dropWhile (· == '_') = name.toList ∧
            (stem = name.toList ∨ stem = '_' :: name.toList) := by
          obtain ⟨hplain, hmarked⟩ := dropWhile_underscore hname
          rcases FileName.isModule_iff.1 hentry with hstem | hstem
          · exact ⟨_, hstem, hplain, .inl rfl⟩
          · exact ⟨_, hstem, hmarked, .inr rfl⟩
        -- the text starts with its stem, which rules out two underscores
        have htext' : stem <+: text :=
          Utf8.isPrefix_of_encode (hbytes ▸ hstem ▸ FileName.stem_isPrefix entry)
        have hunderscores : "__".toList.isPrefixOf text = false := by
          refine isPrefixOf_underscores_eq_false hname ?_
          rcases hstart with rfl | rfl
          · exact .inl htext'
          · exact .inr htext'
        have hdecode : Utf8.decode? (FileName.stem (Utf8.encode text)) = some stem := by
          rw [hbytes, hstem, Utf8.decode?_encode]
        rw [moduleName?, hhidden, hforeign, hunderscores, hhousekeeping, hdecode]
        dsimp only
        rw [hdrop]
        simp [hname.ne_nil]
      rw [candidate?, htext]
      dsimp only
      rw [hdirectory, hmark, hname?]
      simp

end FileSystem

end PluginDataset
