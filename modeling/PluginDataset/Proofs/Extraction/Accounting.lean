import Mathlib.Data.List.Basic
import PluginDataset.Extraction
import PluginDataset.Proofs.Text.ByteOrder

/-!
# Accounting for names

What extraction makes of a list of names. Entries come out in ascending order of the names that they
declare. Any number of listed names may declare one name: the sort is stable and the removal of
repeats keeps the entry before, so the earliest claimant provides the entry.

## Main definitions

* `Extractor.declared` lists the entries that some names provide, before they are sorted.
* `Extractor.IsEarliestClaim` says that an entry comes from the earliest name that declares its
  name.

## Main results

* `Extractor.gather_eq`: what has been gathered after a list of names.
* `Extractor.mem_modules_iff`: the entries that remain are the earliest claims.
* `Extractor.extractReporting_accounts`: every listed name is accounted for.
-/

namespace PluginDataset

/-! ## Sorting -/

theorem name_le_trans (a b c : ModuleEntry) (hab : decide (a.name ≤ b.name) = true)
    (hbc : decide (b.name ≤ c.name) = true) : decide (a.name ≤ c.name) = true := by
  simp only [decide_eq_true_eq] at *
  exact Std.le_trans hab hbc

theorem name_le_total (a b : ModuleEntry) :
    (decide (a.name ≤ b.name) || decide (b.name ≤ a.name)) = true := by
  simp only [Bool.or_eq_true, decide_eq_true_eq]
  exact Std.le_total

/-- Sorted entries are in ascending order of their names. -/
theorem pairwise_sortEntries (entries : List ModuleEntry) :
    (sortEntries entries).Pairwise fun a b => a.name ≤ b.name := by
  have h : (sortEntries entries).Pairwise fun a b => decide (a.name ≤ b.name) = true :=
    List.pairwise_mergeSort name_le_trans name_le_total entries
  exact h.imp fun hab => by simpa using hab

theorem sortEntries_perm (entries : List ModuleEntry) : (sortEntries entries).Perm entries :=
  List.mergeSort_perm _ _

/-- Entries of one name keep their order when they are sorted. -/
theorem filter_sortEntries (name : String) (entries : List ModuleEntry) :
    (sortEntries entries).filter (fun e => decide (e.name = name)) =
      entries.filter (fun e => decide (e.name = name)) := by
  have hle : (entries.filter fun e => decide (e.name = name)).Pairwise
      fun a b => decide (a.name ≤ b.name) = true := by
    refine List.pairwise_of_forall_mem_list fun a ha b hb => ?_
    have ha' : a.name = name := by simpa using (List.mem_filter.1 ha).2
    have hb' : b.name = name := by simpa using (List.mem_filter.1 hb).2
    simp [ha', hb']
  -- entries of one name are in order already, so that a stable sort keeps them as a sublist
  have hsub : (entries.filter fun e => decide (e.name = name)).Sublist (sortEntries entries) :=
    List.sublist_mergeSort name_le_trans name_le_total hle List.filter_sublist
  have hsub' := hsub.filter fun e => decide (e.name = name)
  rw [List.filter_filter] at hsub'
  simp only [Bool.and_self] at hsub'
  have hlen := ((sortEntries_perm entries).filter fun e => decide (e.name = name)).length_eq
  exact (hsub'.eq_of_length hlen.symm).symm

/-- The first entry of a name is the same after sorting. -/
theorem find?_sortEntries (name : String) (entries : List ModuleEntry) :
    (sortEntries entries).find? (fun e => decide (e.name = name)) =
      entries.find? (fun e => decide (e.name = name)) := by
  rw [← List.head?_filter, ← List.head?_filter, filter_sortEntries]

/-! ## Removal of repeats -/

theorem dropDuplicates_sublist (entries : List ModuleEntry) :
    (dropDuplicates entries).Sublist entries := by
  fun_induction dropDuplicates entries with
  | case1 => exact List.Sublist.refl _
  | case2 m rest h ih => exact (List.nil_sublist rest).cons_cons m
  | case3 m rest next kept h hname ih =>
    rw [h] at ih
    exact ((List.sublist_cons_self next kept).trans ih).cons_cons m
  | case4 m rest next kept h hname ih =>
    rw [h] at ih
    exact ih.cons_cons m

/-- The first entry of a name is never removed. -/
theorem find?_dropDuplicates (name : String) (entries : List ModuleEntry) :
    (dropDuplicates entries).find? (fun e => decide (e.name = name)) =
      entries.find? (fun e => decide (e.name = name)) := by
  fun_induction dropDuplicates entries with
  | case1 => rfl
  | case2 m rest h ih =>
    rw [h] at ih
    rw [List.find?_cons, List.find?_cons, ih]
  | case3 m rest next kept h hname ih =>
    rw [h] at ih
    rw [List.find?_cons, List.find?_cons, ← ih]
    by_cases hm : m.name = name
    · simp [hm]
    · have hn : next.name ≠ name := hname ▸ hm
      simp [hm, hn]
  | case4 m rest next kept h hname ih =>
    rw [h] at ih
    rw [List.find?_cons, ih, List.find?_cons]

/-- What remains of entries in ascending order has distinct names. -/
theorem pairwise_dropDuplicates {entries : List ModuleEntry}
    (h : entries.Pairwise fun a b => a.name ≤ b.name) :
    (dropDuplicates entries).Pairwise fun a b => a.name < b.name := by
  fun_induction dropDuplicates entries with
  | case1 => exact .nil
  | case2 m rest hrest ih => exact List.pairwise_singleton _ _
  | case3 m rest next kept hrest hname ih =>
    have ih := ih (List.pairwise_cons.1 h).2
    rw [hrest, List.pairwise_cons] at ih
    refine List.pairwise_cons.2 ⟨fun e he => ?_, ih.2⟩
    rw [hname]
    exact ih.1 e he
  | case4 m rest next kept hrest hname ih =>
    have hm := (List.pairwise_cons.1 h).1
    have ih := ih (List.pairwise_cons.1 h).2
    -- the next entry that is kept is one of the later ones
    have hnext : next ∈ rest := by
      have := (dropDuplicates_sublist rest).subset
      rw [hrest] at this
      exact this List.mem_cons_self
    have hlt : m.name < next.name := Std.lt_of_le_of_ne (hm next hnext) hname
    rw [hrest] at ih
    refine List.pairwise_cons.2 ⟨fun e he => ?_, ih⟩
    rcases List.mem_cons.1 he with rfl | he
    · exact hlt
    · exact String.lt_trans hlt ((List.pairwise_cons.1 ih).1 e he)

/-- Entries of distinct names all remain. -/
theorem dropDuplicates_of_nodup {entries : List ModuleEntry}
    (h : (entries.map (·.name)).Nodup) : dropDuplicates entries = entries := by
  fun_induction dropDuplicates entries with
  | case1 => rfl
  | case2 m rest hrest ih =>
    rw [← ih (List.nodup_cons.1 h).2, hrest]
  | case3 m rest next kept hrest hname ih =>
    have hrest' := ih (List.nodup_cons.1 h).2
    rw [hrest] at hrest'
    rw [← hrest'] at h
    simp [hname] at h
  | case4 m rest next kept hrest hname ih =>
    rw [← ih (List.nodup_cons.1 h).2, hrest]

/-- Nothing is removed from sorted entries just when their names are distinct. -/
theorem length_dropDuplicates_sortEntries_iff (entries : List ModuleEntry) :
    (dropDuplicates (sortEntries entries)).length = entries.length ↔
      (entries.map (·.name)).Nodup := by
  have hperm := sortEntries_perm entries
  constructor
  · intro hlen
    -- a sublist of full length is the whole list, and what remains has distinct names
    have heq := (dropDuplicates_sublist (sortEntries entries)).eq_of_length
      (hlen.trans hperm.length_eq.symm)
    have hlt := pairwise_dropDuplicates (pairwise_sortEntries entries)
    rw [heq] at hlt
    refine (hperm.map _).nodup_iff.1 (List.pairwise_map.2 (hlt.imp ?_))
    intro a b hab
    exact Std.ne_of_lt hab
  · intro h
    rw [dropDuplicates_of_nodup ((hperm.map _).nodup_iff.2 h), hperm.length_eq]

namespace Extractor

variable {σ : Type}

/-! ## One name -/

/-- A name provides an entry when it is not excluded and resolves to a file, not of another
language, with documentation. The entry is made of the fields of the documentation. -/
theorem extract_eq_extracted_iff {x : Extractor} {name : String} {e : ModuleEntry} :
    x.extract name = .extracted e ↔ name ∉ x.exclude ∧
      ∃ path d, x.ecosystem.resolveModule name x.paths = some path ∧ x.isDirectory path = false ∧
        path.isOtherLanguage = false ∧ x.documentation path = .ok d ∧
        e = .ofFields name d.fields := by
  rw [extract]
  by_cases hexclude : name ∈ x.exclude
  · simp [hexclude]
  · rw [if_neg (by simpa using hexclude)]
    cases hpath : x.ecosystem.resolveModule name x.paths with
    | none => simp
    | some path =>
      dsimp only
      by_cases hdirectory : x.isDirectory path = true
      · simp [hdirectory]
      · by_cases hlanguage : path.isOtherLanguage = true
        · simp [hlanguage, hdirectory]
        · rw [if_neg hdirectory, if_neg hlanguage]
          cases hd : x.documentation path with
          | error fault => simp [hd]
          | ok d =>
            constructor
            · intro h
              obtain rfl := Outcome.extracted.inj h
              exact ⟨hexclude, path, d, rfl, by simpa using hdirectory, by simpa using hlanguage,
                hd, rfl⟩
            · rintro ⟨_, path', d', hpath', _, _, hd', rfl⟩
              obtain rfl := Option.some.inj hpath'
              obtain rfl := Except.ok.inj (hd.symm.trans hd')
              rfl

/-- Extractors that resolve a name alike, and answer alike about its path, deal with it alike. -/
theorem extract_congr {x y : Extractor} {name : String} (hexclude : y.exclude = x.exclude)
    (hresolve : y.ecosystem.resolveModule name y.paths = x.ecosystem.resolveModule name x.paths)
    (hpath : ∀ p, x.ecosystem.resolveModule name x.paths = some p →
      y.isDirectory p = x.isDirectory p ∧ y.documentation p = x.documentation p) :
    y.extract name = x.extract name := by
  rw [extract, extract, hexclude, hresolve]
  cases hresolved : x.ecosystem.resolveModule name x.paths with
  | none => rfl
  | some p =>
    obtain ⟨hdirectory, hdocumentation⟩ := hpath p hresolved
    dsimp only
    rw [hdirectory, hdocumentation]

/-! ## Gathering -/

/-- The entries that some names provide, in the order of the names. -/
def declared (x : Extractor) (names : List String) : List ModuleEntry :=
  names.filterMap fun name => (x.extract name).extracted?

/-- The modules that are skipped, in the order of the names. -/
def passedOver (x : Extractor) (names : List String) : List SkippedModule :=
  names.filterMap fun name => (x.extract name).skipped?

/-- The number of names that provide an entry. -/
def extractedCount (x : Extractor) (names : List String) : Nat :=
  names.countP fun name => (x.extract name).extracted?.isSome

/-- An entry comes from a listed name, and no name before it declares the same name. -/
def IsEarliestClaim (x : Extractor) (names : List String) (e : ModuleEntry) : Prop :=
  ∃ before name after, names = before ++ name :: after ∧ x.extract name = .extracted e ∧
    ∀ n ∈ before, ∀ other, x.extract n = .extracted other → other.name ≠ e.name

theorem mem_declared {x : Extractor} {names : List String} {e : ModuleEntry} :
    e ∈ x.declared names ↔ ∃ name ∈ names, x.extract name = .extracted e := by
  simp only [declared, List.mem_filterMap]
  refine exists_congr fun name => and_congr_right fun _ => ?_
  cases x.extract name <;> simp [Outcome.extracted?]

theorem declared_cons_extracted {x : Extractor} {n : String} {e : ModuleEntry}
    {rest : List String} (h : x.extract n = .extracted e) :
    x.declared (n :: rest) = e :: x.declared rest := by
  simp [declared, h, Outcome.extracted?]

theorem declared_cons_skipped {x : Extractor} {n : String} {m : SkippedModule}
    {rest : List String} (h : x.extract n = .skipped m) :
    x.declared (n :: rest) = x.declared rest := by
  simp [declared, h, Outcome.extracted?]

theorem passedOver_cons_extracted {x : Extractor} {n : String} {e : ModuleEntry}
    {rest : List String} (h : x.extract n = .extracted e) :
    x.passedOver (n :: rest) = x.passedOver rest := by
  simp [passedOver, h, Outcome.skipped?]

theorem passedOver_cons_skipped {x : Extractor} {n : String} {m : SkippedModule}
    {rest : List String} (h : x.extract n = .skipped m) :
    x.passedOver (n :: rest) = m :: x.passedOver rest := by
  simp [passedOver, h, Outcome.skipped?]

/-- Extractors that deal with names alike provide the same entries for them. -/
theorem declared_congr {x y : Extractor} {names : List String}
    (h : ∀ name ∈ names, y.extract name = x.extract name) : y.declared names = x.declared names :=
  List.filterMap_congr fun name hname => by rw [h name hname]

theorem passedOver_congr {x y : Extractor} {names : List String}
    (h : ∀ name ∈ names, y.extract name = x.extract name) :
    y.passedOver names = x.passedOver names :=
  List.filterMap_congr fun name hname => by rw [h name hname]

/-- What has been gathered after a list of names: each name has left its outcome and one report, in
the order of the list. -/
theorem gather_eq (x : Extractor) (report : Reporter σ) (total current : Nat) (g : Gathered σ)
    (names : List String) :
    x.gather report total current g names =
      { entries := g.entries ++ x.declared names
        skipped := g.skipped ++ x.passedOver names
        reported := (names.zipIdx current).foldl
          (fun reported (name, number) => report name number total reported) g.reported } := by
  induction names generalizing current g with
  | nil => simp [gather, declared, passedOver]
  | cons name rest ih =>
    rw [gather, ih, List.zipIdx_cons, List.foldl_cons]
    cases h : x.extract name with
    | extracted entry =>
      simp [Gathered.add, Gathered.report, declared_cons_extracted h, passedOver_cons_extracted h]
    | skipped m =>
      simp [Gathered.add, Gathered.report, declared_cons_skipped h, passedOver_cons_skipped h]

/-- The result of extraction, and what the reports come to. -/
theorem extractReporting_eq (x : Extractor) (report : Reporter σ) (names : List String)
    (start : σ) :
    x.extractReporting report names start =
      (⟨dropDuplicates (sortEntries (x.declared names)), x.passedOver names⟩,
        (names.zipIdx 1).foldl
          (fun reported (name, number) => report name number names.length reported) start) := by
  simp [extractReporting, gather_eq]

/-- Extractors that deal with names alike have the same results for them, and the same reports. -/
theorem extractReporting_congr {x y : Extractor} {names : List String}
    (h : ∀ name ∈ names, y.extract name = x.extract name) (report : Reporter σ) (start : σ) :
    y.extractReporting report names start = x.extractReporting report names start := by
  rw [extractReporting_eq, extractReporting_eq, declared_congr h, passedOver_congr h]

/-- Reports do not bear on the result of extraction. -/
theorem extractReporting_fst (x : Extractor) (report : Reporter σ) (names : List String)
    (start : σ) : (x.extractReporting report names start).1 = x.extractAll names := by
  rw [extractAll, extractReporting_eq, extractReporting_eq]

theorem extractAll_modules (x : Extractor) (names : List String) :
    (x.extractAll names).modules = dropDuplicates (sortEntries (x.declared names)) := by
  rw [extractAll, extractReporting_eq]

theorem extractAll_skipped (x : Extractor) (names : List String) :
    (x.extractAll names).skipped = x.passedOver names := by
  rw [extractAll, extractReporting_eq]

/-! ## The entries that remain -/

/-- Modules have distinct names in ascending order. -/
theorem pairwise_modules (x : Extractor) (names : List String) :
    (x.extractAll names).modules.Pairwise fun a b => a.name < b.name := by
  rw [extractAll_modules]
  exact pairwise_dropDuplicates (pairwise_sortEntries _)

/-- The module of a name is the first entry that declares the name. -/
theorem find?_modules (x : Extractor) (names : List String) (name : String) :
    (x.extractAll names).modules.find? (fun e => decide (e.name = name)) =
      (x.declared names).find? (fun e => decide (e.name = name)) := by
  rw [extractAll_modules, find?_dropDuplicates, find?_sortEntries]

/-- Among modules of distinct names an entry is the one that is found under its name. -/
theorem mem_iff_find?_of_pairwise {entries : List ModuleEntry} {e : ModuleEntry}
    (h : entries.Pairwise fun a b => a.name < b.name) :
    e ∈ entries ↔ entries.find? (fun other => decide (other.name = e.name)) = some e := by
  constructor
  · intro he
    induction entries with
    | nil => exact absurd he (List.not_mem_nil)
    | cons m rest ih =>
      rw [List.pairwise_cons] at h
      rcases List.mem_cons.1 he with rfl | he
      · simp
      · have hne : m.name ≠ e.name := Std.ne_of_lt (h.1 e he)
        rw [List.find?_cons_of_neg (by simpa using hne)]
        exact ih h.2 he
  · exact List.mem_of_find?_eq_some

/-- The earliest claim is made by the first name, or by a later one if the first name declares
another name or none. -/
theorem isEarliestClaim_cons {x : Extractor} {n : String} {rest : List String} {e : ModuleEntry} :
    x.IsEarliestClaim (n :: rest) e ↔ x.extract n = .extracted e ∨
      (∀ other, x.extract n = .extracted other → other.name ≠ e.name) ∧
        x.IsEarliestClaim rest e := by
  constructor
  · rintro ⟨before, name, after, hnames, he, hbefore⟩
    cases before with
    | nil =>
      obtain ⟨rfl, rfl⟩ := List.cons.inj hnames
      exact .inl he
    | cons b before =>
      obtain ⟨rfl, rfl⟩ := List.cons.inj hnames
      exact .inr ⟨hbefore n List.mem_cons_self, before, name, after, rfl, he,
        fun m hm => hbefore m (List.mem_cons_of_mem n hm)⟩
  · rintro (he | ⟨hn, before, name, after, rfl, he, hbefore⟩)
    · exact ⟨[], n, rest, rfl, he, by simp⟩
    · refine ⟨n :: before, name, after, rfl, he, fun m hm => ?_⟩
      rcases List.mem_cons.1 hm with rfl | hm
      · exact hn
      · exact hbefore m hm

/-- The first of the provided entries that declares the name of `e` is `e` itself just when `e` is
the earliest claim. -/
theorem find?_declared_iff {x : Extractor} {names : List String} {e : ModuleEntry} :
    (x.declared names).find? (fun other => decide (other.name = e.name)) = some e ↔
      x.IsEarliestClaim names e := by
  induction names with
  | nil => simp [declared, IsEarliestClaim]
  | cons n rest ih =>
    rw [isEarliestClaim_cons, ← ih]
    cases hn : x.extract n with
    | skipped m => simp [declared_cons_skipped hn]
    | extracted other =>
      rw [declared_cons_extracted hn]
      by_cases hname : other.name = e.name
      · simp [hname]
      · have hne : other ≠ e := fun h => hname (h ▸ rfl)
        simp [hname, hne]

/-- The modules are the earliest claims. -/
theorem mem_modules_iff (x : Extractor) (names : List String) (e : ModuleEntry) :
    e ∈ (x.extractAll names).modules ↔ x.IsEarliestClaim names e := by
  rw [mem_iff_find?_of_pairwise (x.pairwise_modules names), find?_modules, find?_declared_iff]

/-- A name is among the modules just when a listed name declares it. -/
theorem exists_mem_modules_iff (x : Extractor) (names : List String) (m : String) :
    (∃ e ∈ (x.extractAll names).modules, e.name = m) ↔
      ∃ name ∈ names, ∃ e, x.extract name = .extracted e ∧ e.name = m := by
  have hfound : ((x.extractAll names).modules.find? fun e => decide (e.name = m)).isSome = true ↔
      ((x.declared names).find? fun e => decide (e.name = m)).isSome = true := by
    rw [find?_modules]
  simp only [List.find?_isSome, decide_eq_true_eq, mem_declared] at hfound
  rw [hfound]
  constructor
  · rintro ⟨e, ⟨name, hname, he⟩, hm⟩
    exact ⟨name, hname, e, he, hm⟩
  · rintro ⟨name, hname, e, he, hm⟩
    exact ⟨e, ⟨name, hname, he⟩, hm⟩

/-! ## Counting -/

theorem length_declared (x : Extractor) (names : List String) :
    (x.declared names).length = x.extractedCount names :=
  List.length_filterMap_eq_countP

/-- Every name is extracted or skipped. -/
theorem length_passedOver_add (x : Extractor) (names : List String) :
    (x.passedOver names).length + (x.declared names).length = names.length := by
  induction names with
  | nil => rfl
  | cons n rest ih =>
    cases hn : x.extract n with
    | extracted e =>
      rw [passedOver_cons_extracted hn, declared_cons_extracted hn, List.length_cons,
        List.length_cons, ← ih, Nat.add_assoc]
    | skipped m =>
      rw [passedOver_cons_skipped hn, declared_cons_skipped hn, List.length_cons,
        List.length_cons, ← ih, Nat.add_right_comm]

/-- No entry is lost to a repeated name just when the declared names are distinct. -/
theorem length_modules_add_iff (x : Extractor) (names : List String) :
    (x.extractAll names).modules.length + (x.extractAll names).skipped.length = names.length ↔
      ((x.declared names).map (·.name)).Nodup := by
  rw [extractAll_modules, extractAll_skipped, ← length_dropDuplicates_sortEntries_iff,
    ← x.length_passedOver_add names]
  omega

/-! ## The account -/

/-- Extraction accounts for every listed name. The modules are in ascending byte order of distinct
names, a name is among them just when a listed name declares it, and its entry is that of the
earliest name that does. Every listed name is extracted or skipped, in the order of the list, and
no entry is dropped just when the declared names are distinct. There is one report on each name, in
order, with its number and the number of all names. -/
theorem extractReporting_accounts (x : Extractor) (report : Reporter σ) (names : List String)
    (start : σ) :
    let extraction := (x.extractReporting report names start).1
    (extraction.modules.Pairwise fun a b =>
        Utf8.encode a.name.toList < Utf8.encode b.name.toList) ∧
      (∀ m, (∃ e ∈ extraction.modules, e.name = m) ↔
        ∃ name ∈ names, ∃ e, x.extract name = .extracted e ∧ e.name = m) ∧
      (∀ e, e ∈ extraction.modules ↔ x.IsEarliestClaim names e) ∧
      extraction.skipped = names.filterMap (fun name => (x.extract name).skipped?) ∧
      names.length = extraction.skipped.length + x.extractedCount names ∧
      (extraction.modules.length + extraction.skipped.length = names.length ↔
        ((x.declared names).map (·.name)).Nodup) ∧
      (x.extractReporting report names start).2 =
        (names.zipIdx 1).foldl
          (fun reported (name, number) => report name number names.length reported) start := by
  intro extraction
  have hextraction : extraction = x.extractAll names := x.extractReporting_fst report names start
  rw [hextraction]
  refine ⟨?_, x.exists_mem_modules_iff names, x.mem_modules_iff names, x.extractAll_skipped names,
    ?_, x.length_modules_add_iff names, ?_⟩
  · exact (x.pairwise_modules names).imp fun hab => Utf8.encode_lt_encode_iff.2 hab
  · rw [extractAll_skipped, ← length_declared, length_passedOver_add]
  · rw [extractReporting_eq]

end Extractor

end PluginDataset
