import PluginDataset.Proofs.Dataset.ReadBack
import PluginDataset.Proofs.Yaml.Values

/-!
# Nesting of stored datasets

A dataset nests three levels deeper than the free-form values of its modules. Its text is refused
just when this is more than the reader takes: nothing else that documentation can hold keeps it from
being read. Documents may nest as deep as the reader of JSON takes on its own, so that options which
are read from documentation can be too deep to be read from a dataset.

## Main definitions

* `ModuleEntry.nesting` is the depth of the free-form values of a module.
* `Dataset.reread` is a dataset with the numbers that are read from its text.

## Main results

* `Dataset.read?_text_eq_none_iff`: when the text of a dataset is refused.
* `Documentation.validateText_ofModule`: which documentation makes a dataset that passes validation.
-/

namespace PluginDataset

namespace Json

/-! ## Values with the numbers that are read -/

theorem rereadItems_eq_map (items : List Json) : rereadItems items = items.map reread := by
  induction items with
  | nil => rfl
  | cons v rest ih => rw [rereadItems, ih, List.map_cons]

theorem rereadMembers_eq_map (members : List (String × Json)) :
    rereadMembers members = members.map fun (k, v) => (k, v.reread) := by
  induction members with
  | nil => rfl
  | cons p rest ih => rw [rereadMembers, ih, List.map_cons]

mutual

theorem depth_reread (v : Json) : v.reread.depth = v.depth := by
  match v with
  | .null | .bool _ | .number _ | .string _ => rfl
  | .array items => rw [reread, depth, depth, depthItems_reread items]
  | .object members => rw [reread, depth, depth, depthMembers_reread members]

theorem depthItems_reread (items : List Json) :
    depthItems (rereadItems items) = depthItems items := by
  match items with
  | [] => rfl
  | v :: rest => rw [rereadItems, depthItems, depthItems, depth_reread v, depthItems_reread rest]

theorem depthMembers_reread (members : List (String × Json)) :
    depthMembers (rereadMembers members) = depthMembers members := by
  match members with
  | [] => rfl
  | (k, v) :: rest =>
    rw [rereadMembers, depthMembers, depthMembers, depth_reread v, depthMembers_reread rest]

end

mutual

theorem Canonical.reread {v : Json} (h : v.Canonical) : v.reread.Canonical := by
  match v, h with
  | .null, _ | .bool _, _ | .number _, _ | .string _, _ => trivial
  | .array items, h => exact canonicalItems_reread h
  | .object members, h =>
    refine ⟨?_, canonicalMembers_reread h.2⟩
    rw [rereadMembers_eq_map]
    simpa [Keyed.Ascending, Keyed.keys, Function.comp_def] using h.1

theorem canonicalItems_reread {items : List Json} (h : CanonicalItems items) :
    CanonicalItems (rereadItems items) := by
  match items, h with
  | [], _ => trivial
  | v :: rest, h => exact ⟨h.1.reread, canonicalItems_reread h.2⟩

theorem canonicalMembers_reread {members : List (String × Json)} (h : CanonicalMembers members) :
    CanonicalMembers (rereadMembers members) := by
  match members, h with
  | [], _ => trivial
  | (k, v) :: rest, h => exact ⟨h.1.reread, canonicalMembers_reread h.2⟩

end

theorem reread_ofStrings (names : List String) : (ofStrings names).reread = ofStrings names :=
  (floatFree_ofStrings names).reread_eq

theorem readableItems_iff {items : List Json} : ReadableItems items ↔ ∀ v ∈ items, v.Readable := by
  induction items with
  | nil => simp [ReadableItems]
  | cons v rest ih => simp [ReadableItems, ih]

end Json

/-! ## Modules -/

namespace ModuleEntry

/-- The free-form values are in order, and all of their numbers are read. -/
def IsPrintable (m : ModuleEntry) : Prop :=
  ∀ v, m.options = some v ∨ m.deprecated = some v → v.Canonical ∧ v.Readable

/-- The depth of the deeper one of the free-form values. -/
def nesting (m : ModuleEntry) : Nat :=
  max (Json.ofOption m.options).depth (Json.ofOption m.deprecated).depth

/-- The module with the numbers that are read from its text. -/
def reread (m : ModuleEntry) : ModuleEntry :=
  { m with options := m.options.map Json.reread, deprecated := m.deprecated.map Json.reread }

theorem reread_toJson (m : ModuleEntry) : m.toJson.reread = m.reread.toJson := by
  obtain ⟨name, short, options, deprecated⟩ := m
  cases short <;> cases options <;> cases deprecated <;> rfl

theorem depth_shortDescription (s : Option String) :
    (Json.ofOption (s.map .string)).depth = 0 := by
  cases s <;> rfl

theorem depth_toJson (m : ModuleEntry) : m.toJson.depth = m.nesting + 1 := by
  simp only [toJson, Json.depth, Json.depthMembers, depth_shortDescription, nesting]
  omega

variable {m : ModuleEntry}

theorem IsPrintable.readable_toJson (h : m.IsPrintable) : m.toJson.Readable := by
  have hshort : (Json.ofOption (m.shortDescription.map .string)).Readable := by
    cases m.shortDescription <;> trivial
  have hoptions : (Json.ofOption m.options).Readable :=
    Json.of_ofOption trivial fun v hv => (h v (.inl hv)).2
  have hdeprecated : (Json.ofOption m.deprecated).Readable :=
    Json.of_ofOption trivial fun v hv => (h v (.inr hv)).2
  exact ⟨trivial, hshort, hoptions, hdeprecated, trivial⟩

/-- Putting the members of a module in order does not change its depth. -/
theorem IsPrintable.depth_sorted_toJson (h : m.IsPrintable) :
    m.reread.toJson.sorted.depth = m.nesting + 1 := by
  have hsorted : ∀ {v : Option Json}, (∀ w, v = some w → w.Canonical) →
      (Json.ofOption (v.map Json.reread)).sorted.depth = (Json.ofOption v).depth := by
    intro v hv
    cases v with
    | none => rfl
    | some w =>
      show w.reread.sorted.depth = w.depth
      rw [Json.sorted_of_canonical (hv w rfl).reread, Json.depth_reread]
  rw [sorted_toJson]
  simp only [sortedMembers, reread, Json.depth, Json.depthMembers, depth_shortDescription, nesting,
    hsorted fun w hw => (h w (.inl hw)).1, hsorted fun w hw => (h w (.inr hw)).1]
  omega

end ModuleEntry

/-! ## Datasets -/

namespace Dataset

/-- The dataset with the numbers that are read from its text. -/
def reread (d : Dataset) : Dataset :=
  { d with modules := d.modules.map ModuleEntry.reread }

theorem reread_directives (index : DirectiveIndex) :
    (DirectiveIndex.toJson index).reread = DirectiveIndex.toJson index := by
  simp [DirectiveIndex.toJson, Json.reread, Json.rereadMembers_eq_map, Json.reread_ofStrings]

theorem reread_toJson (d : Dataset) : d.toJson.reread = d.reread.toJson := by
  simp [toJson, reread, Json.reread, Json.rereadMembers, Json.rereadItems_eq_map,
    Json.reread_ofStrings, reread_directives, ModuleEntry.reread_toJson]

variable {d : Dataset}

theorem Valid.reread (h : d.Valid) : d.reread.Valid where
  modules := List.pairwise_map.2 h.modules
  directives := h.directives
  overrides := h.overrides

theorem readable_toJson (h : ∀ m ∈ d.modules, m.IsPrintable) : d.toJson.Readable := by
  have hmodules : Json.Readable (.array (d.modules.map ModuleEntry.toJson)) := by
    refine Json.readableItems_iff.2 fun v hv => ?_
    obtain ⟨m, hm, rfl⟩ := List.mem_map.1 hv
    exact (h m hm).readable_toJson
  have hdirectives : (DirectiveIndex.toJson d.directives).Readable := by
    refine Json.readableMembers_iff.2 fun p hp => ?_
    obtain ⟨q, _, rfl⟩ := List.mem_map.1 hp
    exact (Json.floatFree_ofStrings q.2).readable
  exact ⟨hmodules, hdirectives, (Json.floatFree_ofStrings _).readable, trivial⟩

/-- What is read from the text of a dataset is as deep as the dataset. -/
theorem depth_sorted_toJson (hdirectives : Keyed.Ascending d.directives)
    (h : ∀ m ∈ d.modules, m.IsPrintable) :
    d.reread.toJson.sorted.depth = d.toJson.depth := by
  have hmodules : ∀ modules : List ModuleEntry, (∀ m ∈ modules, m.IsPrintable) →
      Json.depthItems ((modules.map ModuleEntry.reread).map fun m => m.toJson.sorted) =
        Json.depthItems (modules.map ModuleEntry.toJson) := by
    intro modules h
    induction modules with
    | nil => rfl
    | cons m rest ih =>
      rw [List.forall_mem_cons] at h
      simp only [List.map_cons, Json.depthItems, h.1.depth_sorted_toJson, m.depth_toJson, ih h.2]
  have hdirectives : Keyed.Ascending d.reread.directives := hdirectives
  rw [sorted_toJson hdirectives]
  simp only [sortedMembers, toJson, Dataset.reread, Json.depth, Json.depthMembers, hmodules _ h]
  omega

/-- The text of a dataset is refused just when the dataset nests too deep. -/
theorem read?_text_eq_none_iff (hdirectives : Keyed.Ascending d.directives)
    (h : ∀ m ∈ d.modules, m.IsPrintable) {limit : Nat} :
    Json.read? limit d.text = none ↔ limit < d.toJson.depth := by
  have hwritten := Json.written_prettyAt (readable_toJson h) le_rfl 0
  have hdepth := depth_sorted_toJson hdirectives h
  rw [reread_toJson, ← hdepth] at hwritten
  rw [← hdepth]
  refine Json.read?_eq_none_iff_of_isText ⟨[], _, [], Json.isBlanks_nil, hwritten,
    Json.isBlanks_nil, ?_⟩
  simp [text, Json.pretty]

/-- The text of a dataset in good order passes validation unless it nests too deep. -/
theorem validateText_text_of_isPrintable (hvalid : d.Valid) (h : ∀ m ∈ d.modules, m.IsPrintable) :
    validateText d.text =
      if d.toJson.depth ≤ nestingLimit then .ok d.size else .error .malformed := by
  split
  · next hle =>
    rw [validateText, text, Json.read?_pretty_of_readable (readable_toJson h) hle, reread_toJson]
    dsimp only
    rw [validateJson_sorted_toJson hvalid.reread]
    simp [size, reread]
  · next hlt =>
    rw [validateText, (read?_text_eq_none_iff hvalid.directives h).2 (Nat.lt_of_not_le hlt)]

/-- The dataset whose only module is `m` and whose only directive is that of loops. -/
def ofModule (m : ModuleEntry) : Dataset where
  modules := [m]
  directives := [(loopDirective, ["Task"])]
  lookupPlugins := []

theorem valid_ofModule (m : ModuleEntry) : (ofModule m).Valid where
  modules := List.pairwise_singleton _ _
  directives := List.pairwise_singleton _ _
  overrides := by simp [DirectiveOverride.all, ofModule, Keyed.find?]

theorem depth_ofModule (m : ModuleEntry) : (ofModule m).toJson.depth = m.nesting + 3 := by
  simp [ofModule, toJson, DirectiveIndex.toJson, Json.ofStrings, Json.depth, Json.depthMembers,
    Json.depthItems, m.depth_toJson]

end Dataset

/-! ## Documentation -/

namespace Documentation

open Dataset (nestingLimit validateText ofModule)

variable {source : List Char} {d : Documentation}

theorem isPrintable_ofFields (h : ofSource source = .ok d) (name : String) :
    (ModuleEntry.ofFields name d.fields).IsPrintable := by
  rintro v (hv | hv)
  · exact fields_of_ofSource h (ModuleEntry.mem_of_field? hv)
  · exact fields_of_ofSource h (ModuleEntry.mem_of_field? hv)

/-- A module with documentation makes a dataset that is read, and that passes validation, just when
three levels more than its free-form values have are within the limit of the reader. -/
theorem validateText_ofModule (h : ofSource source = .ok d) (name : String) :
    let m := ModuleEntry.ofFields name d.fields
    (Json.read? nestingLimit (ofModule m).text ≠ none ↔ m.nesting + 3 ≤ nestingLimit) ∧
      validateText (ofModule m).text =
        if m.nesting + 3 ≤ nestingLimit then .ok ⟨1, 1, 0⟩ else .error .malformed := by
  intro m
  have hprintable : ∀ m' ∈ (ofModule m).modules, m'.IsPrintable := by
    intro m' hm'
    obtain rfl := List.mem_singleton.1 hm'
    exact isPrintable_ofFields h name
  have hvalid := Dataset.valid_ofModule m
  constructor
  · rw [Ne, Dataset.read?_text_eq_none_iff hvalid.directives hprintable, Dataset.depth_ofModule,
      Nat.not_lt]
  · rw [Dataset.validateText_text_of_isPrintable hvalid hprintable, Dataset.depth_ofModule]
    rfl

/-- Documentation whose options are 125 arrays, each in the next one. -/
def deepSource : List Char :=
  "DOCUMENTATION = '''\nmodule: deep\noptions: ".toList ++ List.replicate 125 '[' ++
    List.replicate 125 ']' ++ "\n'''\n".toList

/-- Options that are read 125 levels deep make a dataset that is refused. -/
theorem validateText_ofModule_deep :
    ∃ d, ofSource deepSource = .ok d ∧
      Json.read? nestingLimit (ofModule (.ofFields "deep" d.fields)).text = none ∧
      validateText (ofModule (.ofFields "deep" d.fields)).text = .error .malformed := by
  have hdeep : (match ofSource deepSource with
    | .ok d => (ModuleEntry.ofFields "deep" d.fields).nesting == 125
    | .error _ => false) = true := by decide +kernel
  cases h : ofSource deepSource with
  | error fault =>
    rw [h] at hdeep
    simp at hdeep
  | ok d =>
    rw [h] at hdeep
    have hnesting := eq_of_beq hdeep
    obtain ⟨hread, hvalidate⟩ := validateText_ofModule h "deep"
    rw [hnesting] at hread hvalidate
    have hlimit : ¬125 + 3 ≤ nestingLimit := by decide
    exact ⟨d, rfl, not_not.1 (mt hread.1 hlimit), hvalidate.trans (if_neg hlimit)⟩

end Documentation

end PluginDataset
