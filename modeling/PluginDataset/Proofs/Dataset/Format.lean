import Mathlib.Data.List.Forall2
import PluginDataset.Proofs.Dataset.ReadBack
import PluginDataset.Proofs.Text.ByteOrder
import PluginDataset.Proofs.Text.Decoding

/-!
# The format of stored datasets

What a stored dataset looks like, told without its reader: an object of exactly three sections, with
modules of exactly four fields in ascending order of the bytes of their names, directives that carry
the built-in override, and the names of lookup plugins. A file passes validation just when its bytes
spell a text of this format.

## Main definitions

* `Json.IsEntry` describes a module, and `Json.IsModules`, `Json.IsDirectives` and `Json.IsStrings`
  describe the sections.
* `Json.IsFormat` describes a dataset with sections of given sizes.

## Main results

* `Dataset.validateJson_eq_ok_iff`: values of the format pass validation, and no other ones.
* `Dataset.validate_eq_ok_iff`: files of the format pass validation, and no other ones.
-/

namespace PluginDataset

/-! ## The format -/

namespace Json

/-- An object has exactly the given keys. -/
def HasExactly (expected : List String) (members : List (String × Json)) : Prop :=
  ∀ key, key ∈ Keyed.keys members ↔ key ∈ expected

/-- A module with the given name. Its free-form fields are there, whatever they hold. -/
def IsEntry (name : String) (v : Json) : Prop :=
  ∃ members, v = .object members ∧
    HasExactly ["module", "short_description", "options", "deprecated"] members ∧
    Keyed.find? "module" members = some (.string name) ∧
    (Keyed.find? "short_description" members = some .null ∨
      ∃ s, Keyed.find? "short_description" members = some (.string s))

/-- An array of so many modules. The bytes of each name are smaller than those of all names after
it. -/
def IsModules (v : Json) (count : Nat) : Prop :=
  ∃ entries names, v = .array entries ∧ entries.length = count ∧
    List.Forall₂ IsEntry names entries ∧
    names.Pairwise fun a b => Utf8.encode a.toList < Utf8.encode b.toList

/-- An array of so many strings. -/
def IsStrings (v : Json) (count : Nat) : Prop :=
  ∃ names : List String, v = .array (names.map .string) ∧ names.length = count

/-- An object with so many directives, each with its kinds. Looping directives are for tasks. -/
def IsDirectives (v : Json) (count : Nat) : Prop :=
  ∃ members, v = .object members ∧ members.length = count ∧
    (∀ p ∈ members, ∃ n, IsStrings p.2 n) ∧
    Keyed.find? "with_" members = some (.array [.string "Task"])

/-- A dataset with sections of the given sizes. -/
def IsFormat (v : Json) (size : DatasetSize) : Prop :=
  ∃ members modules directives lookups, v = .object members ∧
    HasExactly ["modules", "directives", "lookup_plugins"] members ∧
    Keyed.find? "modules" members = some modules ∧ IsModules modules size.modules ∧
    Keyed.find? "directives" members = some directives ∧
    IsDirectives directives size.directives ∧
    Keyed.find? "lookup_plugins" members = some lookups ∧ IsStrings lookups size.lookupPlugins

end Json

/-! ## Lists of pairs -/

namespace Keyed

variable {α β : Type}

theorem find?_map (key : String) (f : α → β) (pairs : List (String × α)) :
    find? key (pairs.map fun p => (p.1, f p.2)) = (find? key pairs).map f := by
  induction pairs with
  | nil => rfl
  | cons p rest ih =>
    rw [List.map_cons, find?, find?, ih]
    split <;> rfl

theorem exists_find?_of_mem_keys {key : String} {pairs : List (String × α)}
    (h : key ∈ keys pairs) : ∃ v, find? key pairs = some v := by
  induction pairs with
  | nil => exact absurd h List.not_mem_nil
  | cons p rest ih =>
    obtain ⟨k, v⟩ := p
    rw [find?]
    split
    · exact ⟨v, rfl⟩
    · next hne => exact ih ((List.mem_cons.1 h).resolve_left hne)

/-- The keys of a sorted list are determined by which keys it has. -/
theorem keys_eq_of_ascending {pairs : List (String × α)} (h : Ascending pairs)
    {expected : List String} (hexpected : expected.Pairwise (· < ·))
    (hkeys : ∀ key, key ∈ keys pairs ↔ key ∈ expected) : keys pairs = expected := by
  have hnodup : ∀ l : List String, l.Pairwise (· < ·) → l.Nodup := fun l hl =>
    hl.imp Std.ne_of_lt
  have hperm : (keys pairs).Perm expected :=
    (List.perm_ext_iff_of_nodup (hnodup _ h) (hnodup _ hexpected)).2 hkeys
  refine hperm.eq_of_pairwise (fun a b _ _ hab hba => ?_) h hexpected
  exact absurd hba (String.lt_asymm hab)

end Keyed

theorem Json.ofStrings_injective : Function.Injective ofStrings := by
  intro names names' h
  exact List.map_injective_iff.2 (fun _ _ => Json.string.inj) (Json.array.inj h)

theorem FileSystem.readText_eq_ok_iff {fs : FileSystem} {p : Path} {text : List Char} :
    fs.readText p = .ok text ↔ ∃ bytes, fs.read p = .ok bytes ∧ Utf8.encode text = bytes := by
  rw [readText]
  cases fs.read p with
  | error e => simp
  | ok bytes =>
    simp only [Except.ok.injEq, exists_eq_left', ← Utf8.decode?_eq_some_iff]
    cases Utf8.decode? bytes <;> simp

/-! ## What readers accept -/

namespace Schema

variable {α β : Type}

/-- A list is read item by item. -/
theorem mapM_eq_ok_iff {f : α → Except SchemaFault β} {items : List α} {r : List β} :
    items.mapM f = .ok r ↔ List.Forall₂ (fun v a => f v = .ok a) items r := by
  induction items generalizing r with
  | nil => simp [pure, Except.pure, eq_comm]
  | cons v items ih =>
    simp only [List.mapM_cons, bind_eq_ok_iff, ih, List.forall₂_cons_left_iff, pure, Except.pure,
      Except.ok.injEq]
    constructor
    · rintro ⟨a, ha, s, hs, rfl⟩
      exact ⟨a, s, ha, hs, rfl⟩
    · rintro ⟨a, s, ha, hs, rfl⟩
      exact ⟨a, ha, s, hs, rfl⟩

theorem string_eq_ok_iff {v : Json} {s : String} : string v = .ok s ↔ v = .string s := by
  cases v <;> simp [string]

theorem list_string_eq_ok_iff {v : Json} {names : List String} :
    list string v = .ok names ↔ v = .ofStrings names := by
  constructor
  · intro h
    cases v with
    | array items =>
      rw [list, mapM_eq_ok_iff] at h
      have hitems : items = names.map .string := by
        induction h with
        | nil => rfl
        | cons hv _ ih => rw [string_eq_ok_iff.1 hv, ih, List.map_cons]
      rw [hitems, Json.ofStrings]
    | _ => simp [list] at h
  · rintro rfl
    exact list_string_ofStrings names

/-- The members of an object of lists of strings are those of the index that is read from it. -/
theorem members_of_mapM_list_string {members : List (String × Json)} {index : DirectiveIndex}
    (h : (members.mapM fun (k, v) => (list string v).map (k, ·)) = .ok index) :
    members = index.map fun (key, kinds) => (key, Json.ofStrings kinds) := by
  rw [mapM_eq_ok_iff] at h
  induction h with
  | nil => rfl
  | @cons p q _ _ hp _ ih =>
    obtain ⟨key, v⟩ := p
    cases hv : list string v with
    | error e => simp [hv, Except.map] at hp
    | ok kinds =>
      obtain rfl : (key, kinds) = q := by simpa [hv, Except.map] using hp
      rw [list_string_eq_ok_iff.1 hv, ih, List.map_cons]

theorem map_list_string_eq_ok_iff {v : Json} {index : DirectiveIndex} :
    map (list string) v = .ok index ↔ v = DirectiveIndex.toJson index := by
  constructor
  · intro h
    cases v with
    | object members => rw [members_of_mapM_list_string h, DirectiveIndex.toJson]
    | _ => simp [map] at h
  · rintro rfl
    exact map_list_toJson index

/-- A string that may be absent is a string or `null`. -/
theorem exists_optional_string_iff {v : Json} :
    (∃ s, optional string v = .ok s) ↔ v = .null ∨ ∃ s, v = .string s := by
  cases v <;> simp [optional, string, Except.map]

theorem exists_optional_any (v : Json) : ∃ o, optional any v = .ok o := by
  cases v <;> exact ⟨_, rfl⟩

end Schema

/-! ## Checks -/

namespace Dataset

theorem checkKeys_eq_ok_iff {what : String} {expected : List String}
    {members : List (String × Json)} :
    checkKeys what expected members = .ok () ↔ Json.HasExactly expected members := by
  simp only [checkKeys, Json.HasExactly]
  split
  · next h =>
    simp only [Bool.and_eq_true, List.all_eq_true, List.contains_iff_mem] at h
    simp only [true_iff]
    exact fun key => ⟨h.1 key, h.2 key⟩
  · next h =>
    simp only [reduceCtorEq, false_iff]
    intro hkeys
    refine h ?_
    simp only [Bool.and_eq_true, List.all_eq_true, List.contains_iff_mem]
    exact ⟨fun key => (hkeys key).1, fun key => (hkeys key).2⟩

/-- A key that an object has leads to a value, which is the one that is checked. -/
theorem find?_eq_some_member {key : String} {members : List (String × Json)}
    (h : key ∈ Keyed.keys members) : Keyed.find? key members = some (member key members) := by
  obtain ⟨v, hv⟩ := Keyed.exists_find?_of_mem_keys h
  rw [member, hv]
  rfl

/-- An object with exactly the fields of a module, and a name. -/
def IsNamed (name : String) (v : Json) : Prop :=
  ∃ members, v = .object members ∧ Json.HasExactly ModuleEntry.keys members ∧
    Keyed.find? "module" members = some (.string name)

theorem checkEntry_eq_ok_iff {previous : Option String} {entry : Json} {name : String} :
    checkEntry previous entry = .ok name ↔
      IsNamed name entry ∧ ∀ before ∈ previous, before < name := by
  cases entry with
  | object members =>
    rw [checkEntry, bind_eq_ok_iff]
    constructor
    · rintro ⟨_, hkeys, h⟩
      replace hkeys := checkKeys_eq_ok_iff.1 hkeys
      have hfind := find?_eq_some_member ((hkeys "module").2 (by decide))
      cases hname : member "module" members with
      | string s =>
        rw [hname] at h hfind
        cases previous with
        | none =>
          obtain rfl := Except.ok.inj h
          exact ⟨⟨members, rfl, hkeys, hfind⟩, by simp⟩
        | some before =>
          dsimp only at h
          split at h
          · simp at h
          · next hlt =>
            obtain rfl := Except.ok.inj h
            exact ⟨⟨members, rfl, hkeys, hfind⟩, by simpa using hlt⟩
      | _ => simp [hname] at h
    · rintro ⟨⟨_, hmembers, hkeys, hfind⟩, hbefore⟩
      obtain rfl := Json.object.inj hmembers
      have hname : member "module" members = .string name := by rw [member, hfind]; rfl
      refine ⟨(), checkKeys_eq_ok_iff.2 hkeys, ?_⟩
      rw [hname]
      cases previous with
      | none => rfl
      | some before => exact if_neg (Std.not_le.2 (hbefore before rfl))
  | _ => simp [checkEntry, IsNamed]

/-- The comparison of neighbours orders all names, since it is transitive. -/
theorem checkEntries_eq_ok_iff {previous : Option String} {entries : List Json} :
    checkEntries previous entries = .ok () ↔
      ∃ names, List.Forall₂ IsNamed names entries ∧ names.Pairwise (· < ·) ∧
        ∀ before ∈ previous, ∀ name ∈ names, before < name := by
  induction entries generalizing previous with
  | nil => simp [checkEntries]
  | cons entry entries ih =>
    rw [checkEntries, bind_eq_ok_iff]
    constructor
    · rintro ⟨name, hentry, hrest⟩
      obtain ⟨hnamed, hbefore⟩ := checkEntry_eq_ok_iff.1 hentry
      obtain ⟨names, hnames, hpairwise, hlt⟩ := ih.1 hrest
      refine ⟨name :: names, .cons hnamed hnames, .cons (hlt name rfl) hpairwise, ?_⟩
      intro before hb later hlater
      rcases List.mem_cons.1 hlater with rfl | hlater
      · exact hbefore before hb
      · exact String.lt_trans (hbefore before hb) (hlt name rfl later hlater)
    · rintro ⟨_, hnames, hpairwise, hbefore⟩
      cases hnames with
      | @cons name _ names _ hnamed hnames =>
        rw [List.pairwise_cons] at hpairwise
        refine ⟨name, checkEntry_eq_ok_iff.2 ⟨hnamed, ?_⟩, ih.2 ⟨names, hnames, hpairwise.2, ?_⟩⟩
        · exact fun before hb => hbefore before hb name List.mem_cons_self
        · intro before hb
          obtain rfl := Option.some.inj hb
          exact hpairwise.1

theorem checkModules_eq_ok_iff {v : Json} :
    checkModules v = .ok () ↔ ∃ entries names, v = .array entries ∧
      List.Forall₂ IsNamed names entries ∧ names.Pairwise (· < ·) := by
  cases v with
  | array entries => simp [checkModules, checkEntries_eq_ok_iff]
  | _ => simp [checkModules]

theorem checkOverrides_all_iff {index : DirectiveIndex} :
    checkOverrides index DirectiveOverride.all = .ok () ↔
      Keyed.find? "with_" index = some ["Task"] := by
  simp [DirectiveOverride.all, checkOverrides, loopDirective]

end Dataset

/-! ## Modules -/

namespace ModuleEntry

/-- An object with the fields of a module lists them in this order. -/
theorem exists_eq_object {members : List (String × Json)} (h : Keyed.Ascending members)
    (hkeys : Json.HasExactly keys members) : ∃ deprecated name options short,
      members = [("deprecated", deprecated), ("module", name), ("options", options),
        ("short_description", short)] := by
  have hsorted : Keyed.keys members =
      ["deprecated", "module", "options", "short_description"] := by
    refine Keyed.keys_eq_of_ascending h (by decide) fun key => (hkeys key).trans ?_
    simp only [keys, List.mem_cons, List.not_mem_nil, or_false]
    tauto
  match members, hsorted with
  | [(_, deprecated), (_, name), (_, options), (_, short)], hsorted =>
    simp only [Keyed.keys_cons, Keyed.keys_nil, List.cons.injEq, and_true] at hsorted
    obtain ⟨rfl, rfl, rfl, rfl⟩ := hsorted
    exact ⟨deprecated, name, options, short, rfl⟩

/-- A module whose name has been checked can be read if its short description can. -/
theorem exists_ofJson_iff {name : String} {v : Json} (hv : v.Canonical)
    (h : Dataset.IsNamed name v) : (∃ m, ofJson v = .ok m) ↔ Json.IsEntry name v := by
  obtain ⟨members, rfl, hkeys, hname⟩ := h
  obtain ⟨deprecated, _, options, short, rfl⟩ := exists_eq_object hv.1 hkeys
  obtain rfl : _ = Json.string name := by simpa [Keyed.find?] using hname
  obtain ⟨o, ho⟩ := Schema.exists_optional_any options
  obtain ⟨d, hd⟩ := Schema.exists_optional_any deprecated
  have hread : ofJson (.object [("deprecated", deprecated), ("module", .string name),
      ("options", options), ("short_description", short)]) =
      (Schema.optional Schema.string short).map fun s => ⟨name, s, o, d⟩ := by
    simp only [ofJson, Schema.Fields.read, fields, List.foldlM_cons, List.foldlM_nil, ho, hd]
    cases Schema.optional Schema.string short <;> rfl
  have hreads : (∃ m, (Schema.optional Schema.string short).map (fun s => ⟨name, s, o, d⟩) =
      Except.ok (ε := SchemaFault) (α := ModuleEntry) m) ↔
      ∃ s, Schema.optional Schema.string short = .ok s := by
    cases Schema.optional Schema.string short <;> simp [Except.map]
  rw [hread, hreads, Schema.exists_optional_string_iff, Json.IsEntry]
  constructor
  · intro hshort
    refine ⟨_, rfl, hkeys, hname, ?_⟩
    simpa [Keyed.find?] using hshort
  · rintro ⟨_, hmembers, _, _, hshort⟩
    obtain rfl := Json.object.inj hmembers
    simpa [Keyed.find?] using hshort

/-- Modules whose names have been checked can be read if their short descriptions can. -/
theorem exists_list_ofJson_iff {names : List String} {entries : List Json}
    (hentries : Json.CanonicalItems entries) (h : List.Forall₂ Dataset.IsNamed names entries) :
    (∃ modules, Schema.list ofJson (.array entries) = .ok modules) ↔
      List.Forall₂ Json.IsEntry names entries := by
  simp only [Schema.list, Schema.mapM_eq_ok_iff]
  induction h with
  | nil => exact ⟨fun _ => .nil, fun _ => ⟨[], .nil⟩⟩
  | @cons name entry names entries hnamed _ ih =>
    have hentry := exists_ofJson_iff hentries.1 hnamed
    rw [List.forall₂_cons, ← hentry, ← ih hentries.2]
    constructor
    · rintro ⟨_, hmodules⟩
      cases hmodules with
      | cons hm hrest => exact ⟨⟨_, hm⟩, ⟨_, hrest⟩⟩
    · rintro ⟨⟨m, hm⟩, ⟨modules, hrest⟩⟩
      exact ⟨m :: modules, .cons hm hrest⟩

/-- The section of modules passes the check of names, and can be read. -/
theorem isModules_iff {v : Json} (hv : v.Canonical) {count : Nat} :
    Json.IsModules v count ↔ Dataset.checkModules v = .ok () ∧
      ∃ modules, Schema.list ofJson v = .ok modules ∧ modules.length = count := by
  have horder : ∀ names : List String,
      names.Pairwise (fun a b => Utf8.encode a.toList < Utf8.encode b.toList) ↔
        names.Pairwise (· < ·) := fun names =>
    List.Pairwise.iff fun _ _ => Utf8.encode_lt_encode_iff
  have hlength : ∀ {entries modules}, Schema.list ofJson (.array entries) = .ok modules →
      modules.length = entries.length := fun h => (Schema.mapM_eq_ok_iff.1 h).length_eq.symm
  rw [Dataset.checkModules_eq_ok_iff]
  constructor
  · rintro ⟨entries, names, rfl, hcount, hentries, hnames⟩
    have hnamed : List.Forall₂ Dataset.IsNamed names entries := by
      refine hentries.imp fun name entry hentry => ?_
      obtain ⟨members, hmembers, hkeys, hname, _⟩ := hentry
      exact ⟨members, hmembers, hkeys, hname⟩
    obtain ⟨modules, hmodules⟩ := (exists_list_ofJson_iff hv hnamed).2 hentries
    exact ⟨⟨entries, names, rfl, hnamed, (horder names).1 hnames⟩, modules, hmodules,
      (hlength hmodules).trans hcount⟩
  · rintro ⟨⟨entries, names, rfl, hnamed, hnames⟩, modules, hmodules, hcount⟩
    have hentries := (exists_list_ofJson_iff hv hnamed).1 ⟨modules, hmodules⟩
    exact ⟨entries, names, rfl, (hlength hmodules).symm.trans hcount, hentries,
      (horder names).2 hnames⟩

end ModuleEntry

/-! ## Directives -/

namespace DirectiveIndex

/-- An object of string arrays is the value of an index. -/
theorem exists_eq_toJson {members : List (String × Json)}
    (h : ∀ p ∈ members, ∃ n, Json.IsStrings p.2 n) :
    ∃ index, Json.object members = toJson index := by
  induction members with
  | nil => exact ⟨[], rfl⟩
  | cons p rest ih =>
    obtain ⟨key, v⟩ := p
    rw [List.forall_mem_cons] at h
    obtain ⟨_, kinds, rfl, _⟩ := h.1
    obtain ⟨index, hindex⟩ := ih h.2
    obtain rfl := Json.object.inj hindex
    exact ⟨(key, kinds) :: index, rfl⟩

/-- The section of directives is the value of an index with the built-in override. -/
theorem isDirectives_iff {v : Json} {count : Nat} :
    Json.IsDirectives v count ↔ ∃ index, v = toJson index ∧ index.length = count ∧
      Keyed.find? "with_" index = some ["Task"] := by
  have hfind : ∀ index : DirectiveIndex,
      Keyed.find? "with_" (index.map fun p => (p.1, Json.ofStrings p.2)) =
        some (.array [.string "Task"]) ↔ Keyed.find? "with_" index = some ["Task"] := by
    intro index
    rw [Keyed.find?_map, Option.map_eq_some_iff]
    constructor
    · rintro ⟨kinds, hkinds, htask⟩
      obtain rfl : kinds = ["Task"] := Json.ofStrings_injective htask
      exact hkinds
    · exact fun hkinds => ⟨_, hkinds, rfl⟩
  constructor
  · rintro ⟨members, rfl, hcount, hstrings, hoverride⟩
    obtain ⟨index, hindex⟩ := exists_eq_toJson hstrings
    obtain rfl := Json.object.inj hindex
    refine ⟨index, rfl, ?_, (hfind index).1 hoverride⟩
    rw [← hcount, List.length_map]
  · rintro ⟨index, rfl, hcount, hoverride⟩
    refine ⟨_, rfl, ?_, ?_, (hfind index).2 hoverride⟩
    · rw [List.length_map, hcount]
    · intro p hp
      obtain ⟨q, _, rfl⟩ := List.mem_map.1 hp
      exact ⟨_, q.2, rfl, rfl⟩

end DirectiveIndex

/-! ## Datasets -/

namespace Dataset

/-- An object with the sections of a dataset lists them in this order. -/
theorem exists_eq_object {members : List (String × Json)} (h : Keyed.Ascending members)
    (hkeys : Json.HasExactly keys members) : ∃ directives lookups modules,
      members = [("directives", directives), ("lookup_plugins", lookups),
        ("modules", modules)] := by
  have hsorted : Keyed.keys members = ["directives", "lookup_plugins", "modules"] := by
    refine Keyed.keys_eq_of_ascending h (by decide) fun key => (hkeys key).trans ?_
    simp only [keys, List.mem_cons, List.not_mem_nil, or_false]
    tauto
  match members, hsorted with
  | [(_, directives), (_, lookups), (_, modules)], hsorted =>
    simp only [Keyed.keys_cons, Keyed.keys_nil, List.cons.injEq, and_true] at hsorted
    obtain ⟨rfl, rfl, rfl⟩ := hsorted
    exact ⟨directives, lookups, modules, rfl⟩

/-- A dataset is read section by section. -/
theorem ofJson_eq_ok_iff {directives lookups modules : Json} {d : Dataset} :
    ofJson (.object [("directives", directives), ("lookup_plugins", lookups),
      ("modules", modules)]) = .ok d ↔
      Schema.list ModuleEntry.ofJson modules = .ok d.modules ∧
        directives = DirectiveIndex.toJson d.directives ∧
        lookups = .ofStrings d.lookupPlugins := by
  rw [← Schema.map_list_string_eq_ok_iff, ← Schema.list_string_eq_ok_iff]
  obtain ⟨_, _, _⟩ := d
  simp only [ofJson, Schema.Fields.read, fields, List.foldlM_cons, List.foldlM_nil]
  cases Schema.map (Schema.list Schema.string) directives <;>
    cases Schema.list Schema.string lookups <;>
    cases Schema.list ModuleEntry.ofJson modules <;>
    simp [bind, Except.bind, Except.map, Schema.required, pure, Except.pure]

theorem validateJson_object {members : List (String × Json)} {size : DatasetSize} :
    validateJson (.object members) = .ok size ↔ Json.HasExactly keys members ∧
      checkModules (member "modules" members) = .ok () ∧ ∃ d, ofJson (.object members) = .ok d ∧
        Keyed.find? "with_" d.directives = some ["Task"] ∧ d.size = size := by
  have hcheck : checkKeys "dataset" keys members = .ok () ↔ Json.HasExactly keys members :=
    checkKeys_eq_ok_iff
  have hschema : ∀ d, (ofJson (.object members)).mapError ValidationFault.schema = .ok d ↔
      ofJson (.object members) = .ok d := fun d => by
    cases ofJson (.object members) <;> simp [Except.mapError]
  rw [← hcheck]
  simp only [validateJson, bind_eq_ok_iff, hschema, ← checkOverrides_all_iff]
  constructor
  · rintro ⟨_, hkeys, _, hmodules, d, hread, _, hoverrides, hsize⟩
    exact ⟨hkeys, hmodules, d, hread, hoverrides, Except.ok.inj hsize⟩
  · rintro ⟨hkeys, hmodules, d, hread, hoverrides, rfl⟩
    exact ⟨(), hkeys, (), hmodules, d, hread, (), hoverrides, rfl⟩

/-- Values of the format pass validation, and no other ones. -/
theorem validateJson_eq_ok_iff {v : Json} (hv : v.Canonical) {size : DatasetSize} :
    validateJson v = .ok size ↔ v.IsFormat size := by
  cases v with
  | object members =>
    rw [validateJson_object]
    constructor
    · rintro ⟨hkeys, hmodules, d, hread, hoverride, rfl⟩
      obtain ⟨directives, lookups, modules, rfl⟩ := exists_eq_object hv.1 hkeys
      obtain ⟨hlist, rfl, rfl⟩ := ofJson_eq_ok_iff.1 hread
      refine ⟨_, modules, _, _, rfl, hkeys, rfl, ?_, rfl, ?_, rfl, ?_⟩
      · exact (ModuleEntry.isModules_iff hv.2.2.2.1).2 ⟨hmodules, _, hlist, rfl⟩
      · exact DirectiveIndex.isDirectives_iff.2 ⟨_, rfl, rfl, hoverride⟩
      · exact ⟨_, rfl, rfl⟩
    · rintro ⟨_, modules, directives, lookups, hmembers, hkeys, hfind₁, hmodules, hfind₂,
        hdirectives, hfind₃, hlookups⟩
      obtain rfl := Json.object.inj hmembers
      obtain ⟨directives', lookups', modules', rfl⟩ := exists_eq_object hv.1 hkeys
      obtain rfl : modules' = modules := by simpa [Keyed.find?] using hfind₁
      obtain rfl : directives' = directives := by simpa [Keyed.find?] using hfind₂
      obtain rfl : lookups' = lookups := by simpa [Keyed.find?] using hfind₃
      obtain ⟨hcheck, entries, hentries, hcount⟩ :=
        (ModuleEntry.isModules_iff hv.2.2.2.1).1 hmodules
      obtain ⟨index, rfl, hindex, hoverride⟩ := DirectiveIndex.isDirectives_iff.1 hdirectives
      obtain ⟨names, rfl, hnames⟩ := hlookups
      refine ⟨hkeys, hcheck, ⟨entries, index, names⟩, ofJson_eq_ok_iff.2 ⟨hentries, rfl, rfl⟩,
        hoverride, ?_⟩
      rw [Dataset.size, hcount, hindex, hnames]
  | _ => simp [validateJson, Json.IsFormat]

/-- A text passes validation just when it writes a value of the format. -/
theorem validateText_eq_ok_iff {text : List Char} {size : DatasetSize} :
    validateText text = .ok size ↔
      ∃ v, Json.IsText .exact nestingLimit v text ∧ v.IsFormat size := by
  have hread : ∀ v, Json.read? nestingLimit text = some v ↔
      Json.IsText .exact nestingLimit v text := fun _ => Json.read?_eq_some_iff
  rw [validateText]
  cases h : Json.read? nestingLimit text with
  | none => simp [← hread, h]
  | some v =>
    obtain ⟨_, _, _, _, hwritten, _, _⟩ := (hread v).1 h
    dsimp only
    rw [validateJson_eq_ok_iff hwritten.canonical]
    simp [← hread, h]

/-- A file passes validation just when its bytes spell a text of the format: JSON within the limit
on nesting, with numbers in range and surrogates in pairs. -/
theorem validate_eq_ok_iff (fs : FileSystem) (path : Path) (size : DatasetSize) :
    validate fs path = .ok size ↔ ∃ bytes text v, fs.read path = .ok bytes ∧
      Utf8.encode text = bytes ∧ Json.IsText .exact nestingLimit v text ∧ v.IsFormat size := by
  have hvalidate : validate fs path = .ok size ↔
      ∃ text, fs.readText path = .ok text ∧ validateText text = .ok size := by
    rw [validate]
    cases fs.readText path with
    | error e => cases e <;> simp
    | ok text => cases h : validateText text <;> simp [h, Except.mapError]
  rw [hvalidate]
  simp only [FileSystem.readText_eq_ok_iff, validateText_eq_ok_iff]
  constructor
  · rintro ⟨text, ⟨bytes, hbytes, htext⟩, v, hv, hformat⟩
    exact ⟨bytes, text, v, hbytes, htext, hv, hformat⟩
  · rintro ⟨bytes, text, v, hbytes, htext, hv, hformat⟩
    exact ⟨text, ⟨bytes, hbytes, htext⟩, v, hv, hformat⟩

/-- What a dataset with one module has before the options of the module. -/
def textBeforeOptions : List Char :=
  "\x7b\"directives\": \x7b\"with_\": [\"Task\"]\x7d, \"lookup_plugins\": [], ".toList ++
    "\"modules\": [\x7b\"deprecated\": null, \"module\": \"ping\", \"options\": ".toList

/-- What such a dataset has after them. -/
def textAfterOptions : List Char :=
  ", \"short_description\": null\x7d]\x7d".toList

/-- The value of such a dataset. -/
def optionsJson (options : Json) : Json :=
  .object [
    ("directives", .object [("with_", .array [.string "Task"])]),
    ("lookup_plugins", .array []),
    ("modules", .array [.object [("deprecated", .null), ("module", .string "ping"),
      ("options", options), ("short_description", .null)]])]

theorem isFormat_optionsJson (options : Json) : (optionsJson options).IsFormat ⟨1, 1, 0⟩ := by
  have hentry : Json.IsEntry "ping" (.object [("deprecated", .null), ("module", .string "ping"),
      ("options", options), ("short_description", .null)]) := by
    refine ⟨_, rfl, fun key => ?_, rfl, .inl rfl⟩
    simp only [Keyed.keys_cons, Keyed.keys_nil, List.mem_cons, List.not_mem_nil, or_false]
    tauto
  have hmodules : Json.IsModules (.array [.object [("deprecated", .null),
      ("module", .string "ping"), ("options", options), ("short_description", .null)]]) 1 :=
    ⟨_, ["ping"], rfl, rfl, .cons hentry .nil, List.pairwise_singleton _ _⟩
  have hdirectives : Json.IsDirectives (.object [("with_", .array [.string "Task"])]) 1 := by
    refine ⟨_, rfl, rfl, fun p hp => ?_, rfl⟩
    obtain rfl := List.mem_singleton.1 hp
    exact ⟨_, ["Task"], rfl, rfl⟩
  refine ⟨_, _, _, _, rfl, fun key => ?_, rfl, hmodules, rfl, hdirectives, rfl, [], rfl, rfl⟩
  simp only [Keyed.keys_cons, Keyed.keys_nil, List.mem_cons, List.not_mem_nil, or_false]
  tauto

theorem isText_optionsJson {ρ : Json.Reading} {depth : Nat} {options : Json} {t : List Char}
    (h : Json.Written ρ depth options t) :
    Json.IsText ρ (depth + 3) (optionsJson options)
      (textBeforeOptions ++ (t ++ textAfterOptions)) := by
  have hentry := Json.Written.object
    (Json.writtenMembers_next "deprecated" Json.isBlanks_nil .null
      (Json.writtenMembers_next "module" Json.isBlanks_space
        (Json.written_stringText ρ depth "ping")
        (Json.writtenMembers_next "options" Json.isBlanks_space h
          (Json.writtenMembers_last "short_description" Json.isBlanks_space .null
            Json.isBlanks_nil))))
  have hmodules := Json.Written.array (.last Json.isBlanks_nil hentry Json.isBlanks_nil)
  have htask := Json.Written.array
    (.last Json.isBlanks_nil (Json.written_stringText ρ depth "Task") Json.isBlanks_nil)
  have hdirectives := Json.Written.object
    (Json.writtenMembers_last "with_" Json.isBlanks_nil htask Json.isBlanks_nil)
  have hroot := Json.Written.object
    (Json.writtenMembers_next "directives" Json.isBlanks_nil hdirectives
      (Json.writtenMembers_next "lookup_plugins" Json.isBlanks_space (.emptyArray Json.isBlanks_nil)
        (Json.writtenMembers_last "modules" Json.isBlanks_space hmodules Json.isBlanks_nil)))
  iterate 3
    rw [Keyed.ofList_of_ascending (by
      simp only [Keyed.Ascending, Keyed.keys_cons, Keyed.keys_nil]
      decide)] at hroot
  have hbefore : textBeforeOptions = '\x7b' :: (Json.stringText "directives" ++ ':' :: ' ' ::
      '\x7b' :: (Json.stringText "with_" ++ ':' :: ' ' :: '[' :: (Json.stringText "Task" ++
      ']' :: '\x7d' :: ',' :: ' ' :: (Json.stringText "lookup_plugins" ++ ':' :: ' ' :: '[' ::
      ']' :: ',' :: ' ' :: (Json.stringText "modules" ++ ':' :: ' ' :: '[' :: '\x7b' ::
      (Json.stringText "deprecated" ++ ':' :: ' ' :: ("null".toList ++ ',' :: ' ' ::
      (Json.stringText "module" ++ ':' :: ' ' :: (Json.stringText "ping" ++ ',' :: ' ' ::
      (Json.stringText "options" ++ [':', ' '])))))))))) := by
    decide +kernel
  have hafter : textAfterOptions = ',' :: ' ' :: (Json.stringText "short_description" ++
      ':' :: ' ' :: ("null".toList ++ ['\x7d', ']', '\x7d'])) := by
    decide +kernel
  refine ⟨[], _, [], Json.isBlanks_nil, hroot, Json.isBlanks_nil, ?_⟩
  rw [hbefore, hafter]
  simp only [List.append_assoc, List.cons_append, List.nil_append, List.append_nil]

/-- No fraction has no digits that could be wrong. -/
theorem isDigits_of_mem_none : ∀ f ∈ (none : Option (List Char)), Json.IsDigits f :=
  nofun

/-- A number beyond the range of binary64. -/
def largeNumber : Json.NumberText where
  negative := false
  whole := ['1']
  fraction := none
  exponent := some ⟨false, none, "400".toList, by decide⟩
  isDigits_whole := by decide
  noLeadingZero := by decide
  isDigits_fraction := isDigits_of_mem_none

theorem value?_largeNumber : largeNumber.value? = none :=
  Option.isNone_iff_eq_none.1 (by decide +kernel)

/-- A string of one surrogate without its partner. -/
def loneSurrogate : List Char :=
  "\"\\ud800\"".toList

theorem written_largeNumber (depth : Nat) :
    Json.Written .standard depth (.number (.natural 0)) largeNumber.text := by
  refine .number fun m hm => ?_
  rw [value?_largeNumber] at hm
  simp at hm

theorem written_loneSurrogate (depth : Nat) :
    Json.Written .standard depth (.ofChars [Char.ofNat 0xD800]) loneSurrogate := by
  have hunit : Json.codeUnit? 'd' '8' '0' '0' = some 0xD800 := by decide
  have hchar : Json.WrittenChar .standard (Char.ofNat 0xD800) "\\ud800".toList :=
    .unit hunit fun _ => trivial
  exact .string (.cons hchar .nil)

/-- A file with a dataset, whose options are written as given. -/
def optionsFile (t : List Char) : FileSystem where
  top := .directory [(FileName.ofString "ds.json",
    .file (Utf8.encode (textBeforeOptions ++ (t ++ textAfterOptions))))]
  working := []

/-- The file with these options is of the format, by the grammar of the standard, and does not pass
validation. -/
def StandardOnly (t : List Char) : Prop :=
  (∃ bytes text v, (optionsFile t).read (Path.ofString "ds.json") = .ok bytes ∧
    Utf8.encode text = bytes ∧ Json.IsText .standard nestingLimit v text ∧
    v.IsFormat ⟨1, 1, 0⟩) ∧
  ∀ size, validate (optionsFile t) (Path.ofString "ds.json") ≠ .ok size

theorem standardOnly_of_read?_eq_none {t : List Char} {options : Json}
    (hoptions : Json.Written .standard 124 options t)
    (hread : Json.read? nestingLimit (textBeforeOptions ++ (t ++ textAfterOptions)) = none) :
    StandardOnly t := by
  have hbytes : (optionsFile t).read (Path.ofString "ds.json") =
      .ok (Utf8.encode (textBeforeOptions ++ (t ++ textAfterOptions))) := rfl
  constructor
  · exact ⟨_, _, _, hbytes, rfl, isText_optionsJson hoptions, isFormat_optionsJson options⟩
  · have htext := FileSystem.readText_eq_ok_iff.2 ⟨_, hbytes, rfl⟩
    have hvalidate : validate (optionsFile t) (Path.ofString "ds.json") =
        .error (.validation .malformed) := by
      rw [validate, htext]
      dsimp only
      rw [validateText, hread]
      rfl
    simp [hvalidate]

/-- The grammar of the standard is wider than what passes validation: options may be the number
`1e400` or the string `"\ud800"` there, and the rest of the format is kept. -/
theorem standard_text_not_valid : StandardOnly largeNumber.text ∧ StandardOnly loneSurrogate := by
  constructor
  · exact standardOnly_of_read?_eq_none (written_largeNumber 124)
      (Option.isNone_iff_eq_none.1 (by decide +kernel))
  · exact standardOnly_of_read?_eq_none (written_loneSurrogate 124)
      (Option.isNone_iff_eq_none.1 (by decide +kernel))

end Dataset

end PluginDataset
