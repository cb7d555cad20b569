import PluginDataset.Dataset.Validation
import PluginDataset.Proofs.Directive.Aggregation
import PluginDataset.Proofs.Json.ReadBack

/-!
# Reading back stored datasets

A dataset that is stored as text is read back section by section. Only the free-form values of its
modules may change: a `null` is read as absence, and the members of objects are put in order. A
dataset in good order passes validation, which then reports its sizes.

## Main definitions

* `Dataset.Readable` says that the text of a dataset can be read.
* `Dataset.Valid` says that a dataset is in good order.
* `ModuleEntry.normalized` and `Dataset.normalized` are what is read back.
* `Dataset.Regular` says that reading back changes nothing in a dataset.

## Main results

* `Dataset.ofJson_sorted_toJson`: a dataset is read back from its value.
* `Dataset.validateText_text`: the text of a readable dataset in good order passes validation.
* `Dataset.text_lossless`: a dataset is read back from its text as it was.
-/

namespace PluginDataset

/-! ## Values of the sections -/

namespace Json

theorem sortedItems_eq_map (items : List Json) : sortedItems items = items.map sorted := by
  induction items with
  | nil => rfl
  | cons v rest ih => rw [sortedItems, ih, List.map_cons]

theorem sortedMembers_eq_map (members : List (String × Json)) :
    sortedMembers members = members.map fun (k, v) => (k, v.sorted) := by
  induction members with
  | nil => rfl
  | cons p rest ih => rw [sortedMembers, ih, List.map_cons]

theorem floatFreeItems_iff {items : List Json} :
    FloatFreeItems items ↔ ∀ v ∈ items, v.FloatFree := by
  induction items with
  | nil => simp [FloatFreeItems]
  | cons v rest ih => simp [FloatFreeItems, ih]

theorem floatFreeMembers_iff {members : List (String × Json)} :
    FloatFreeMembers members ↔ ∀ p ∈ members, p.2.FloatFree := by
  induction members with
  | nil => simp [FloatFreeMembers]
  | cons p rest ih => simp [FloatFreeMembers, ih]

theorem sorted_ofStrings (names : List String) : (ofStrings names).sorted = ofStrings names := by
  simp [ofStrings, sorted, sortedItems_eq_map]

theorem floatFree_ofStrings (names : List String) : (ofStrings names).FloatFree := by
  simp [ofStrings, FloatFree, floatFreeItems_iff]

theorem depthItems_le {items : List Json} {n : Nat} (h : ∀ v ∈ items, v.depth ≤ n) :
    depthItems items ≤ n := by
  induction items with
  | nil => exact Nat.zero_le n
  | cons v rest ih =>
    rw [List.forall_mem_cons] at h
    exact Nat.max_le.2 ⟨h.1, ih h.2⟩

theorem depth_ofStrings_le (names : List String) : (ofStrings names).depth ≤ 1 := by
  refine Nat.succ_le_succ (depthItems_le fun v hv => ?_)
  obtain ⟨name, _, rfl⟩ := List.mem_map.1 hv
  exact Nat.le_refl 0

/-- What holds of `null` and of a value holds of the value where it may be absent. -/
theorem of_ofOption {P : Json → Prop} (hnull : P .null) {v : Option Json}
    (h : ∀ w, v = some w → P w) : P (ofOption v) := by
  cases v with
  | none => exact hnull
  | some w => exact h w rfl

end Json

/-! ## Modules -/

namespace ModuleEntry

/-- A free-form value as it is read back. -/
def normalizedField (v : Option Json) : Option Json :=
  (v.filter (!·.isNull)).map Json.sorted

/-- A module as it is read back. -/
def normalized (m : ModuleEntry) : ModuleEntry :=
  { m with options := normalizedField m.options, deprecated := normalizedField m.deprecated }

/-- The members of a module in ascending order of their keys, as they are read back. -/
def sortedMembers (m : ModuleEntry) : List (String × Json) :=
  [("deprecated", (Json.ofOption m.deprecated).sorted), ("module", .string m.name),
    ("options", (Json.ofOption m.options).sorted),
    ("short_description", .ofOption (m.shortDescription.map .string))]

theorem sorted_toJson (m : ModuleEntry) : m.toJson.sorted = .object m.sortedMembers := by
  obtain ⟨name, short, options, deprecated⟩ := m
  cases short <;> rfl

/-- A value that may be absent is read back, with absence for `null`. -/
theorem optional_any_ofOption (v : Option Json) :
    Schema.optional Schema.any (Json.ofOption v).sorted = .ok (normalizedField v) := by
  cases v with
  | none => rfl
  | some v => cases v <;> rfl

theorem optional_string_ofOption (s : Option String) :
    Schema.optional Schema.string (Json.ofOption (s.map .string)) = .ok s := by
  cases s <;> rfl

/-- A module is read back from its value. -/
theorem ofJson_sorted_toJson (m : ModuleEntry) : ofJson m.toJson.sorted = .ok m.normalized := by
  have hfields : fields.read (.object m.sortedMembers) =
      .ok ⟨some m.name, m.shortDescription, normalizedField m.options,
        normalizedField m.deprecated⟩ := by
    simp only [Schema.Fields.read, sortedMembers, fields, List.foldlM_cons, List.foldlM_nil,
      optional_any_ofOption, optional_string_ofOption]
    rfl
  rw [sorted_toJson, ofJson, hfields]
  rfl

theorem normalizedField_eq_self {v : Option Json}
    (h : ∀ w, v = some w → w.Canonical ∧ w ≠ .null) : normalizedField v = v := by
  cases v with
  | none => rfl
  | some w =>
    obtain ⟨hcanonical, hnull⟩ := h w rfl
    have hkept : (some w).filter (!·.isNull) = some w := by
      cases w with
      | null => exact absurd rfl hnull
      | _ => rfl
    rw [normalizedField, hkept, Option.map_some, Json.sorted_of_canonical hcanonical]

theorem normalized_eq_self {m : ModuleEntry}
    (h : ∀ v, m.options = some v ∨ m.deprecated = some v → v.Canonical ∧ v ≠ .null) :
    m.normalized = m := by
  have hoptions := normalizedField_eq_self fun v hv => h v (.inl hv)
  have hdeprecated := normalizedField_eq_self fun v hv => h v (.inr hv)
  rw [normalized, hoptions, hdeprecated]

theorem floatFree_toJson {m : ModuleEntry}
    (h : ∀ v, m.options = some v ∨ m.deprecated = some v → v.FloatFree) : m.toJson.FloatFree := by
  have hshort : (Json.ofOption (m.shortDescription.map .string)).FloatFree := by
    cases m.shortDescription <;> trivial
  have hoptions : (Json.ofOption m.options).FloatFree :=
    Json.of_ofOption trivial fun v hv => h v (.inl hv)
  have hdeprecated : (Json.ofOption m.deprecated).FloatFree :=
    Json.of_ofOption trivial fun v hv => h v (.inr hv)
  exact ⟨trivial, hshort, hoptions, hdeprecated, trivial⟩

theorem depth_toJson_le {m : ModuleEntry} {n : Nat}
    (h : ∀ v, m.options = some v ∨ m.deprecated = some v → v.depth ≤ n) :
    m.toJson.depth ≤ n + 1 := by
  have hshort : (Json.ofOption (m.shortDescription.map .string)).depth = 0 := by
    cases m.shortDescription <;> rfl
  have hoptions : (Json.ofOption m.options).depth ≤ n :=
    Json.of_ofOption (P := (·.depth ≤ n)) (Nat.zero_le n) fun v hv => h v (.inl hv)
  have hdeprecated : (Json.ofOption m.deprecated).depth ≤ n :=
    Json.of_ofOption (P := (·.depth ≤ n)) (Nat.zero_le n) fun v hv => h v (.inr hv)
  simp only [toJson, Json.depth, Json.depthMembers, hshort]
  omega

/-- A field of a module is the value of its documentation. -/
theorem mem_of_field? {key : String} {fields : List (String × Json)} {v : Json}
    (h : field? key fields = some v) : (key, v) ∈ fields := by
  rw [field?, Option.filter_eq_some_iff] at h
  exact Keyed.mem_of_find? h.1

/-- Every module that is read back passes the check of its keys. -/
theorem checkKeys_sortedMembers (m : ModuleEntry) :
    Dataset.checkKeys "module entry" keys m.sortedMembers = .ok () := by
  rfl

/-- A module passes the check after every module with a smaller name. -/
theorem checkEntry_sorted_toJson (m : ModuleEntry) {previous : Option String}
    (h : ∀ before ∈ previous, before < m.name) :
    Dataset.checkEntry previous m.toJson.sorted = .ok m.name := by
  rw [sorted_toJson, Dataset.checkEntry, checkKeys_sortedMembers]
  cases previous with
  | none => rfl
  | some before =>
    have hnot : ¬m.name ≤ before := Std.not_le.2 (h before rfl)
    show (if m.name ≤ before then _ else _) = _
    exact if_neg hnot

/-- Modules in ascending order of distinct names pass the check. -/
theorem checkEntries_sorted_toJson {modules : List ModuleEntry}
    (h : modules.Pairwise fun a b => a.name < b.name) {previous : Option String}
    (hprevious : ∀ before ∈ previous, ∀ m ∈ modules, before < m.name) :
    Dataset.checkEntries previous (modules.map fun m => m.toJson.sorted) = .ok () := by
  induction modules generalizing previous with
  | nil => rfl
  | cons m rest ih =>
    rw [List.pairwise_cons] at h
    have hm := checkEntry_sorted_toJson m fun before hb => hprevious before hb m (by simp)
    rw [List.map_cons, Dataset.checkEntries, hm]
    refine ih h.2 fun before hb m' hm' => ?_
    obtain rfl := Option.some.inj hb
    exact h.1 m' hm'

end ModuleEntry

/-! ## Datasets -/

theorem DirectiveIndex.sorted_toJson {index : DirectiveIndex} (h : Keyed.Ascending index) :
    (toJson index).sorted = toJson index := by
  have htoJson : toJson index = .object (index.map fun p => (p.1, .ofStrings p.2)) := rfl
  have hmembers : Json.sortedMembers (index.map fun p => (p.1, .ofStrings p.2)) =
      index.map fun p => (p.1, Json.ofStrings p.2) := by
    rw [Json.sortedMembers_eq_map, List.map_map]
    exact List.map_congr_left fun p _ => by simp [Json.sorted_ofStrings]
  have hascending : Keyed.Ascending (index.map fun p => (p.1, Json.ofStrings p.2)) := by
    simpa [Keyed.Ascending, Keyed.keys, Function.comp_def] using h
  rw [htoJson, Json.sorted, hmembers, Keyed.ofList_of_ascending hascending]

/-- Names are read back. -/
theorem Schema.list_string_ofStrings (names : List String) :
    Schema.list Schema.string (.ofStrings names) = .ok names := by
  rw [Json.ofStrings, Schema.list]
  induction names with
  | nil => rfl
  | cons name rest ih =>
    rw [List.map_cons, List.mapM_cons, ih]
    rfl

theorem Schema.map_list_toJson (index : DirectiveIndex) :
    Schema.map (Schema.list Schema.string) (DirectiveIndex.toJson index) = .ok index := by
  rw [DirectiveIndex.toJson, Schema.map]
  induction index with
  | nil => rfl
  | cons p rest ih =>
    obtain ⟨key, kinds⟩ := p
    rw [List.map_cons, List.mapM_cons, ih]
    dsimp only
    rw [Schema.list_string_ofStrings]
    rfl

theorem Schema.list_modules (modules : List ModuleEntry) :
    Schema.list ModuleEntry.ofJson (.array (modules.map fun m => m.toJson.sorted)) =
      .ok (modules.map ModuleEntry.normalized) := by
  rw [Schema.list]
  induction modules with
  | nil => rfl
  | cons m rest ih =>
    rw [List.map_cons, List.mapM_cons, ih, ModuleEntry.ofJson_sorted_toJson]
    rfl

namespace Dataset

/-- A dataset as it is read back. -/
def normalized (d : Dataset) : Dataset :=
  { d with modules := d.modules.map ModuleEntry.normalized }

/-- A dataset in good order: its modules stand in ascending order of distinct names, its directives
in ascending order, and the built-in overrides are in place. -/
structure Valid (d : Dataset) : Prop where
  modules : d.modules.Pairwise fun a b => a.name < b.name
  directives : Keyed.Ascending d.directives
  overrides : ∀ o ∈ DirectiveOverride.all, Keyed.find? o.key d.directives = some o.kinds

/-- The free-form values have no binary64 numbers, and the dataset nests no deeper than it can be
read. -/
structure Readable (d : Dataset) : Prop where
  floatFree : ∀ m ∈ d.modules, ∀ v, m.options = some v ∨ m.deprecated = some v → v.FloatFree
  depth_le : d.toJson.depth ≤ nestingLimit

/-- The sections in ascending order of their keys, as they are read back. -/
def sortedMembers (d : Dataset) : List (String × Json) :=
  [("directives", DirectiveIndex.toJson d.directives),
    ("lookup_plugins", .ofStrings d.lookupPlugins),
    ("modules", .array (d.modules.map fun m => m.toJson.sorted))]

theorem sorted_toJson {d : Dataset} (h : Keyed.Ascending d.directives) :
    d.toJson.sorted = .object d.sortedMembers := by
  have hmodules : (Json.array (d.modules.map ModuleEntry.toJson)).sorted =
      .array (d.modules.map fun m => m.toJson.sorted) := by
    rw [Json.sorted, Json.sortedItems_eq_map, List.map_map]
    rfl
  rw [toJson, Json.sorted, Json.sortedMembers_eq_map]
  simp only [List.map_cons, List.map_nil, hmodules, DirectiveIndex.sorted_toJson h,
    Json.sorted_ofStrings]
  rfl

/-- A dataset is read back from its value. -/
theorem ofJson_sorted_toJson {d : Dataset} (h : Keyed.Ascending d.directives) :
    ofJson d.toJson.sorted = .ok d.normalized := by
  have hfields : fields.read (.object d.sortedMembers) =
      .ok ⟨some (d.modules.map ModuleEntry.normalized), some d.directives,
        some d.lookupPlugins⟩ := by
    simp only [Schema.Fields.read, sortedMembers, fields, List.foldlM_cons, List.foldlM_nil,
      Schema.list_modules, Schema.map_list_toJson, Schema.list_string_ofStrings]
    rfl
  rw [sorted_toJson h, ofJson, hfields]
  rfl

/-- The maps of a dataset are in order, as every map is, and no free-form value that is there is
`null`. -/
structure Regular (d : Dataset) : Prop where
  directives : Keyed.Ascending d.directives
  canonical : ∀ m ∈ d.modules, ∀ v, m.options = some v ∨ m.deprecated = some v → v.Canonical
  not_null : ∀ m ∈ d.modules, ∀ v, m.options = some v ∨ m.deprecated = some v → v ≠ .null

theorem Regular.normalized_eq_self {d : Dataset} (h : d.Regular) : d.normalized = d := by
  have hmodules : ∀ m ∈ d.modules, m.normalized = m := fun m hm =>
    ModuleEntry.normalized_eq_self fun v hv => ⟨h.canonical m hm v hv, h.not_null m hm v hv⟩
  rw [normalized, List.map_congr_left hmodules, List.map_id']

theorem size_normalized (d : Dataset) : d.normalized.size = d.size := by
  simp [size, normalized]

theorem Readable.floatFree_toJson {d : Dataset} (h : d.Readable) : d.toJson.FloatFree := by
  have hmodules : Json.FloatFree (.array (d.modules.map ModuleEntry.toJson)) := by
    refine Json.floatFreeItems_iff.2 fun v hv => ?_
    obtain ⟨m, hm, rfl⟩ := List.mem_map.1 hv
    exact ModuleEntry.floatFree_toJson (h.floatFree m hm)
  have hdirectives : (DirectiveIndex.toJson d.directives).FloatFree := by
    refine Json.floatFreeMembers_iff.2 fun p hp => ?_
    obtain ⟨q, _, rfl⟩ := List.mem_map.1 hp
    exact Json.floatFree_ofStrings q.2
  exact ⟨hmodules, hdirectives, Json.floatFree_ofStrings _, trivial⟩

/-- A dataset nests three levels deeper than its free-form values. -/
theorem depth_toJson_le {d : Dataset} {n : Nat}
    (h : ∀ m ∈ d.modules, ∀ v, m.options = some v ∨ m.deprecated = some v → v.depth ≤ n) :
    d.toJson.depth ≤ n + 3 := by
  have hmodules : Json.depthItems (d.modules.map ModuleEntry.toJson) ≤ n + 1 := by
    refine Json.depthItems_le fun v hv => ?_
    obtain ⟨m, hm, rfl⟩ := List.mem_map.1 hv
    exact ModuleEntry.depth_toJson_le (h m hm)
  have hdirectives : (DirectiveIndex.toJson d.directives).depth ≤ 2 := by
    refine Nat.succ_le_succ (Json.depthMembers_le fun p hp => ?_)
    obtain ⟨q, _, rfl⟩ := List.mem_map.1 hp
    exact Json.depth_ofStrings_le q.2
  have hlookups := Json.depth_ofStrings_le d.lookupPlugins
  simp only [toJson, Json.depth, Json.depthMembers]
  omega

/-- Free-form values without binary64 numbers that nest three levels less than the limit can be read
back. -/
theorem Readable.of_depth_le {d : Dataset}
    (h : ∀ m ∈ d.modules, ∀ v, m.options = some v ∨ m.deprecated = some v →
      v.FloatFree ∧ v.depth + 3 ≤ nestingLimit) : d.Readable := by
  refine ⟨fun m hm v hv => (h m hm v hv).1, ?_⟩
  refine depth_toJson_le (n := nestingLimit - 3) fun m hm v hv => ?_
  exact Nat.le_sub_of_add_le (h m hm v hv).2

theorem checkOverrides_of_forall {index : DirectiveIndex} {overrides : List DirectiveOverride}
    (h : ∀ o ∈ overrides, Keyed.find? o.key index = some o.kinds) :
    checkOverrides index overrides = .ok () := by
  induction overrides with
  | nil => rfl
  | cons o rest ih =>
    rw [checkOverrides, if_pos (h o (by simp))]
    exact ih fun o' ho' => h o' (by simp [ho'])

/-- The value of a dataset in good order passes validation. -/
theorem validateJson_sorted_toJson {d : Dataset} (h : d.Valid) :
    validateJson d.toJson.sorted = .ok d.size := by
  have hentries : checkModules (member "modules" d.sortedMembers) = .ok () :=
    ModuleEntry.checkEntries_sorted_toJson h.modules (by simp)
  have hdataset := ofJson_sorted_toJson h.directives
  have hkeys : checkKeys "dataset" keys d.sortedMembers = .ok () := rfl
  rw [sorted_toJson h.directives] at hdataset ⊢
  rw [validateJson, hkeys, hentries, hdataset]
  show (do checkOverrides d.directives DirectiveOverride.all; pure d.normalized.size) = _
  rw [checkOverrides_of_forall h.overrides, size_normalized]
  rfl

/-- The text of a readable dataset in good order passes validation. -/
theorem validateText_text {d : Dataset} (h : d.Valid) (hread : d.Readable) :
    validateText d.text = .ok d.size := by
  rw [validateText, text, Json.read?_pretty hread.floatFree_toJson hread.depth_le]
  exact validateJson_sorted_toJson h

/-- A dataset is read from its text as it was, so that no two datasets have the same text. -/
theorem text_lossless {d : Dataset} (h : d.Regular) (hread : d.Readable) :
    (∃ v, Json.read? nestingLimit d.text = some v ∧ ofJson v = .ok d) ∧
      ∀ d' : Dataset, d'.Regular → d'.Readable → d'.text = d.text → d' = d := by
  -- what is read depends on the text alone
  have hback : ∀ e : Dataset, e.Regular → e.Readable →
      Json.read? nestingLimit e.text = some e.toJson.sorted ∧ ofJson e.toJson.sorted = .ok e := by
    intro e he heread
    refine ⟨Json.read?_pretty heread.floatFree_toJson heread.depth_le, ?_⟩
    rw [ofJson_sorted_toJson he.directives, he.normalized_eq_self]
  obtain ⟨hvalue, hdataset⟩ := hback d h hread
  refine ⟨⟨_, hvalue, hdataset⟩, fun d' h' hread' htext => ?_⟩
  obtain ⟨hvalue', hdataset'⟩ := hback d' h' hread'
  rw [htext] at hvalue'
  have heq := Option.some.inj (hvalue'.symm.trans hvalue)
  rw [heq] at hdataset'
  exact Except.ok.inj (hdataset'.symm.trans hdataset)

/-- An object with a number beside an empty array and a key that has to be escaped. -/
def nestedOptions (n : Json.Number) : Json :=
  .object [("", .array []), ("\t", .object [("n", .number n)])]

/-- An array that holds `null` and the least integer. -/
def listedDeprecation : Json :=
  .array [.null, .number (.negative ⟨0x7fffffffffffffff, by decide⟩)]

/-- A dataset of one module with the given number in its options, and with names that have to be
escaped. -/
def escaping (n : Json.Number) : Dataset where
  modules := [⟨"a\"b\\c\u0001\né", none, some (nestedOptions n), some listedDeprecation⟩]
  directives := [("with_", ["Task"])]
  lookupPlugins := ["", "\""]

theorem forall_mem_escaping {n : Json.Number} {P : Json → Prop} (hoptions : P (nestedOptions n))
    (hdeprecated : P listedDeprecation) :
    ∀ m ∈ (escaping n).modules, ∀ v, m.options = some v ∨ m.deprecated = some v → P v := by
  intro m hm v hv
  obtain rfl := List.mem_singleton.1 hm
  rcases hv with hv | hv
  · exact Option.some.inj hv ▸ hoptions
  · exact Option.some.inj hv ▸ hdeprecated

theorem regular_escaping (n : Json.Number) : (escaping n).Regular where
  directives := List.pairwise_singleton _ _
  canonical := by
    have hkeys : Keyed.Ascending [("", Json.array []), ("\t", .object [("n", .number n)])] :=
      List.pairwise_pair.2 (by decide : "" < "\t")
    have hinner : Json.Canonical (.object [("n", .number n)]) :=
      ⟨List.pairwise_singleton _ _, trivial, trivial⟩
    exact forall_mem_escaping ⟨hkeys, trivial, hinner, trivial⟩ ⟨trivial, trivial, trivial⟩
  not_null := forall_mem_escaping (by simp [nestedOptions]) (by simp [listedDeprecation])

theorem readable_escaping {n : Json.Number} (hn : n.IsInteger) : (escaping n).Readable :=
  Readable.of_depth_le (forall_mem_escaping
    (by simp [nestedOptions, Json.FloatFree, Json.FloatFreeItems, Json.FloatFreeMembers, hn,
      Json.depth, Json.depthItems, Json.depthMembers, nestingLimit])
    (by simp [listedDeprecation, Json.FloatFree, Json.FloatFreeItems, Json.Number.IsInteger,
      Json.depth, Json.depthItems, nestingLimit]))

/-- The greatest integer is read back, and its text is not that of the integer before it. -/
theorem text_lossless_escaping :
    (∃ v, Json.read? nestingLimit
          (escaping (.natural ⟨0xffffffffffffffff, by decide⟩)).text = some v ∧
        ofJson v = .ok (escaping (.natural ⟨0xffffffffffffffff, by decide⟩))) ∧
      (escaping (.natural ⟨0xfffffffffffffffe, by decide⟩)).text ≠
        (escaping (.natural ⟨0xffffffffffffffff, by decide⟩)).text := by
  have h := text_lossless (regular_escaping (.natural ⟨0xffffffffffffffff, by decide⟩))
    (readable_escaping trivial)
  refine ⟨h.1, fun htext => ?_⟩
  have heq := h.2 _ (regular_escaping (.natural ⟨0xfffffffffffffffe, by decide⟩))
    (readable_escaping trivial) htext
  simp [escaping, nestedOptions] at heq

end Dataset

end PluginDataset
