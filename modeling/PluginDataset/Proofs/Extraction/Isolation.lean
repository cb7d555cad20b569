import PluginDataset.Proofs.Extraction.Accounting

/-!
# Failures stay with their module

Two runs of extraction are compared: one in which the documentation of a name is found, and one in
which it is not. The entries of all other modules are the same, and the only further module that is
skipped is the one that fails. Its entry goes to the next name that declares it, if there is one.

## Main definitions

* `Extractor.failingAt` is an extractor whose documentation is missing at some paths.
* `Extractor.entry?` is the entry of a module; `Extractor.claim?` is the entry that the first of
  some names provides that declares the module.

## Main results

* `Extractor.entry?_eq_claim?`: the entry of a module comes from the first name that declares it.
* `Extractor.extractAll_failingAt`: what changes when the documentation of one name fails.
-/

namespace PluginDataset.Extractor

/-- The extractor with documentation that fails at the given paths, and is the same at others. -/
def failingAt (x : Extractor) (failing : Path → Bool) (fault : Path → Fault) : Extractor :=
  { x with documentation := fun path =>
      if failing path then .error (fault path) else x.documentation path }

/-- The entry of the module `m` in the result of extraction. -/
def entry? (x : Extractor) (names : List String) (m : String) : Option ModuleEntry :=
  (x.extractAll names).modules.find? fun e => decide (e.name = m)

/-- The entry that the first of some names provides that declares `m`. -/
def claim? (x : Extractor) (names : List String) (m : String) : Option ModuleEntry :=
  (x.declared names).find? fun e => decide (e.name = m)

/-! ## Claims -/

section

variable {x : Extractor}

theorem entry?_eq_claim? (x : Extractor) (names : List String) (m : String) :
    x.entry? names m = x.claim? names m :=
  x.find?_modules names m

theorem claim?_eq_some_iff {names : List String} {m : String} {e : ModuleEntry} :
    x.claim? names m = some e ↔ e.name = m ∧ x.IsEarliestClaim names e := by
  constructor
  · intro h
    have hname : e.name = m := by simpa using List.find?_some h
    subst hname
    exact ⟨rfl, find?_declared_iff.1 h⟩
  · rintro ⟨rfl, h⟩
    exact find?_declared_iff.2 h

theorem claim?_eq_none_iff {names : List String} {m : String} :
    x.claim? names m = none ↔
      ∀ name ∈ names, ∀ e, x.extract name = .extracted e → e.name ≠ m := by
  simp only [claim?, List.find?_eq_none, mem_declared, decide_eq_true_eq]
  constructor
  · exact fun h name hname e he => h e ⟨name, hname, he⟩
  · rintro h e ⟨name, hname, he⟩
    exact h name hname e he

/-- Of two lists of names, the first one has precedence. -/
theorem claim?_append (x : Extractor) (before after : List String) (m : String) :
    x.claim? (before ++ after) m = (x.claim? before m).or (x.claim? after m) := by
  rw [claim?, declared, List.filterMap_append, List.find?_append]
  rfl

theorem claim?_cons_extracted {n : String} {e : ModuleEntry} (h : x.extract n = .extracted e)
    (rest : List String) (m : String) :
    x.claim? (n :: rest) m = if e.name = m then some e else x.claim? rest m := by
  rw [claim?, declared_cons_extracted h, List.find?_cons]
  by_cases hm : e.name = m <;> simp [hm, claim?]

theorem claim?_cons_skipped {n : String} {s : SkippedModule} (h : x.extract n = .skipped s)
    (rest : List String) (m : String) : x.claim? (n :: rest) m = x.claim? rest m := by
  rw [claim?, declared_cons_skipped h]
  rfl

theorem passedOver_append (x : Extractor) (before after : List String) :
    x.passedOver (before ++ after) = x.passedOver before ++ x.passedOver after :=
  List.filterMap_append

/-- Extractors that deal with names alike choose the same entries for a module. -/
theorem claim?_congr {y : Extractor} {names : List String}
    (h : ∀ name ∈ names, y.extract name = x.extract name) (m : String) :
    y.claim? names m = x.claim? names m := by
  rw [claim?, declared_congr h]
  rfl

end

/-! ## One name that fails -/

section

variable {x : Extractor} {failing : Path → Bool} {fault : Path → Fault}

/-- A name that leads to no failing path is dealt with as before. -/
theorem extract_failingAt_of_forall {name : String}
    (h : ∀ path, x.ecosystem.resolveModule name x.paths = some path → failing path = false) :
    (x.failingAt failing fault).extract name = x.extract name := by
  refine extract_congr rfl rfl fun path hpath => ⟨rfl, ?_⟩
  simp only [failingAt, h path hpath, Bool.false_eq_true, if_false]

/-- What becomes of a name that leads to a file is left to the documentation. -/
theorem extract_eq_of_resolveModule {name : String} {path : Path} (hexclude : name ∉ x.exclude)
    (hpath : x.ecosystem.resolveModule name x.paths = some path)
    (hdirectory : x.isDirectory path = false) (hlanguage : path.isOtherLanguage = false) :
    x.extract name = match x.documentation path with
      | .ok d => .extracted (.ofFields name d.fields)
      | .error fault => .skipped ⟨name, .invalidDocumentation fault⟩ := by
  rw [extract, if_neg (by simpa using hexclude), hpath]
  dsimp only
  exact (if_neg (by simp [hdirectory])).trans (if_neg (by simp [hlanguage]))

/-- A name that leads to a failing path is skipped. -/
theorem extract_failingAt_of_failing {name : String} {e : ModuleEntry} {path : Path}
    (h : x.extract name = .extracted e)
    (hpath : x.ecosystem.resolveModule name x.paths = some path) (hfailing : failing path = true) :
    (x.failingAt failing fault).extract name =
      .skipped ⟨name, .invalidDocumentation (fault path)⟩ := by
  obtain ⟨hexclude, path', d, hpath', hdirectory, hlanguage, _⟩ := extract_eq_extracted_iff.1 h
  obtain rfl := Option.some.inj (hpath.symm.trans hpath')
  have hread := extract_eq_of_resolveModule (x := x.failingAt failing fault) hexclude hpath
    hdirectory hlanguage
  have hfault : (x.failingAt failing fault).documentation path = .error (fault path) :=
    if_pos hfailing
  rw [hread, hfault]

variable (fault) in
/-- When the documentation of a listed name fails, at a path that no other name of the list leads
to, all entries stay but that of the module which the name declared. This one stays as well if an
earlier name declares it, and goes to the next name that does otherwise. The name is skipped at its
place, and no other module is skipped besides. -/
theorem extractAll_failingAt {before after : List String} {n : String} {e : ModuleEntry}
    {path : Path} (hdistinct : (before ++ n :: after).Nodup) (hextract : x.extract n = .extracted e)
    (hpath : x.ecosystem.resolveModule n x.paths = some path) (hfailing : failing path = true)
    (hother : ∀ name ∈ before ++ n :: after, name ≠ n →
      ∀ p, x.ecosystem.resolveModule name x.paths = some p → failing p = false) :
    let names := before ++ n :: after
    let y := x.failingAt failing fault
    (∀ m, m ≠ e.name → y.entry? names m = x.entry? names m) ∧
      (y.entry? names e.name =
        if (x.claim? before e.name).isSome then x.entry? names e.name
        else x.claim? after e.name) ∧
      (x.extractAll names).skipped = x.passedOver before ++ x.passedOver after ∧
      (y.extractAll names).skipped =
        x.passedOver before ++
          ⟨n, .invalidDocumentation (fault path)⟩ :: x.passedOver after := by
  intro names y
  obtain ⟨hbefore, hafter⟩ : n ∉ before ∧ n ∉ after := by
    simp only [List.nodup_append, List.nodup_cons] at hdistinct
    exact ⟨fun hn => hdistinct.2.2 n hn n List.mem_cons_self rfl, hdistinct.2.1.1⟩
  have hsame : ∀ name ∈ before ++ n :: after, name ≠ n → y.extract name = x.extract name :=
    fun name hname hne => extract_failingAt_of_forall (hother name hname hne)
  have hsameBefore : ∀ name ∈ before, y.extract name = x.extract name := fun name hname =>
    hsame name (by simp [hname]) (ne_of_mem_of_not_mem hname hbefore)
  have hsameAfter : ∀ name ∈ after, y.extract name = x.extract name := fun name hname =>
    hsame name (by simp [hname]) (ne_of_mem_of_not_mem hname hafter)
  have hskip : y.extract n = .skipped ⟨n, .invalidDocumentation (fault path)⟩ :=
    extract_failingAt_of_failing hextract hpath hfailing
  -- the entries of both runs, by the claims of the names before and after
  have hx : ∀ m, x.entry? names m =
      (x.claim? before m).or (if e.name = m then some e else x.claim? after m) := fun m => by
    rw [entry?_eq_claim?, claim?_append, claim?_cons_extracted hextract]
  have hy : ∀ m, y.entry? names m = (x.claim? before m).or (x.claim? after m) := fun m => by
    rw [entry?_eq_claim?, claim?_append, claim?_cons_skipped hskip, claim?_congr hsameBefore,
      claim?_congr hsameAfter]
  refine ⟨fun m hm => ?_, ?_, ?_, ?_⟩
  · rw [hx, hy, if_neg (Ne.symm hm)]
  · rw [hx, hy]
    cases x.claim? before e.name <;> rfl
  · rw [extractAll_skipped, passedOver_append, passedOver_cons_extracted hextract]
  · rw [extractAll_skipped, passedOver_append, passedOver_cons_skipped hskip,
      passedOver_congr hsameBefore, passedOver_congr hsameAfter]

end

/-- An extractor that finds every name, with one declared name for all but the name `zip`. -/
def sharing : Extractor where
  ecosystem :=
    { modulePaths := .ok []
      moduleNames := fun _ => []
      resolveModule := fun name _ => some (Path.ofString name)
      lookupPlugins := .ok [] }
  documentation := fun path =>
    if path = Path.ofString "zip" then .ok { fields := [] }
    else .ok { fields := [("module", .string "shared"), ("options", Json.ofChars path.display)] }
  isDirectory := fun _ => false
  paths := []
  exclude := []

/-- When the first of two names that declare `shared` fails, the second one provides its entry. -/
theorem extractAll_failingAt_sharing :
    let y := sharing.failingAt (·.same (Path.ofString "a")) fun _ => .discovery "broken"
    y.entry? ["zip", "a", "b"] "zip" = sharing.entry? ["zip", "a", "b"] "zip" ∧
      sharing.entry? ["zip", "a", "b"] "shared" =
        some ⟨"shared", none, some (.string "a"), none⟩ ∧
      y.entry? ["zip", "a", "b"] "shared" = some ⟨"shared", none, some (.string "b"), none⟩ ∧
      (y.extractAll ["zip", "a", "b"]).skipped.map (·.name) = ["a"] := by
  intro y
  have hzip : sharing.extract "zip" = .extracted ⟨"zip", none, none, none⟩ := rfl
  have ha : sharing.extract "a" = .extracted ⟨"shared", none, some (.string "a"), none⟩ := rfl
  have hb : sharing.extract "b" = .extracted ⟨"shared", none, some (.string "b"), none⟩ := rfl
  have hclaimZip : sharing.claim? ["zip"] "shared" = none := by
    rw [claim?_cons_extracted hzip, if_neg (by decide)]
    rfl
  have hother : ∀ name ∈ ["zip"] ++ "a" :: ["b"], name ≠ "a" → ∀ p,
      sharing.ecosystem.resolveModule name sharing.paths = some p →
        p.same (Path.ofString "a") = false := by
    intro name hname hne p hp
    obtain rfl := Option.some.inj hp
    simp only [List.cons_append, List.nil_append, List.mem_cons, List.not_mem_nil, or_false] at hname
    rcases hname with rfl | rfl | rfl
    · decide
    · exact absurd rfl hne
    · decide
  obtain ⟨hkept, hshared, _, hskipped⟩ := extractAll_failingAt
    (fun _ => .discovery "broken") (by decide) ha rfl (by decide) hother
  refine ⟨hkept "zip" (by decide), ?_, ?_, ?_⟩
  · rw [entry?_eq_claim?, claim?_cons_extracted hzip, if_neg (by decide),
      claim?_cons_extracted ha, if_pos rfl]
  · refine hshared.trans ?_
    rw [hclaimZip, claim?_cons_extracted hb]
    rfl
  · exact (congrArg _ hskipped).trans rfl

end PluginDataset.Extractor
