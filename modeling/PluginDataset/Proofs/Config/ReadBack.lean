import PluginDataset.Config
import PluginDataset.Proofs.Files.Walk
import PluginDataset.Proofs.Toml.Documents

/-!
# Reading back configurations

A configuration that has been saved is loaded as it was, whatever its texts are. Every field has an
entry in the saved text, also if it is empty, so that no default takes its place.

## Main definitions

* `Config.lines` lists the lines of a saved configuration with their statements.

## Main results

* `Config.writes_stringsText`: the text of a field is read as its value.
* `Config.ofText?_text`: a configuration is read back from its text.
* `Config.loadFrom_of_init`: the default configuration is loaded after it has been stored.
* `Config.loadFrom_of_write`: a configuration is loaded from the file that it is saved in.
-/

namespace PluginDataset.Config

/-! ## Fields -/

/-- The value of a field that holds texts. -/
def stringsValue (items : List String) : Toml.Value :=
  .array (items.map fun s => .string s.toList)

/-- The text of a field is read as its value, on one line or several. -/
theorem writes_stringsText (items : List String) :
    Toml.Writes 1 (stringsValue items) (stringsText items) := by
  match items with
  | [] => exact .array_nil
  | [s] => exact (Toml.Writes.string s.toList).array_singleton
  | s :: t :: rest =>
    have hitems : ∀ item ∈ (s :: t :: rest).map fun s =>
        (Toml.Value.string s.toList, Toml.stringText s.toList),
        Toml.Writes 0 item.1 item.2 := by
      intro item hitem
      obtain ⟨s, _, rfl⟩ := List.mem_map.1 hitem
      exact .string s.toList
    have harray := Toml.Writes.array_lines hitems
    simpa [stringsValue, stringsText, Toml.itemLines, Function.comp_def, List.flatMap_map]
      using harray

/-- The text of a field is that of its value, and no default. -/
theorem stringOr?_string (default s : String) :
    stringOr? default (some (.string s.toList)) = some s :=
  congrArg some String.ofList_toList

/-- The texts of a field are those of its value, and no default. -/
theorem stringsOr?_stringsValue (default items : List String) :
    stringsOr? default (some (stringsValue items)) = some items := by
  rw [stringsValue, stringsOr?]
  induction items with
  | nil => rfl
  | cons s rest ih =>
    rw [List.map_cons, List.mapM_cons, stringOr?_string, ih]
    rfl

/-! ## Lines -/

def headerLine (name : String) : List Char × Option Toml.Statement :=
  (headerText name, some (.header [] name.toList))

def entryLine (key : String) (v : Toml.Value) (text : List Char) :
    List Char × Option Toml.Statement :=
  (entryText key text, some (.entry [] key.toList v))

def blankLine : List Char × Option Toml.Statement :=
  (['\n'], none)

/-- The lines of a saved configuration, each with the statement that it holds. -/
def lines (c : Config) : List (List Char × Option Toml.Statement) :=
  [headerLine "ecosystem",
    entryLine "module_paths" (stringsValue c.modulePaths) (stringsText c.modulePaths),
    entryLine "lookup_paths" (stringsValue c.lookupPaths) (stringsText c.lookupPaths),
    blankLine, headerLine "modules",
    entryLine "exclude" (stringsValue c.exclude) (stringsText c.exclude),
    blankLine, headerLine "output",
    entryLine "path" (.string c.output.toList) (Toml.stringText c.output.toList)]

theorem documentText_lines (c : Config) : Toml.documentText c.lines = c.text := by
  simp [Toml.documentText, lines, headerLine, entryLine, blankLine, text]

theorem isLine_headerLine {name : String} (h : Toml.IsBareKey name.toList) :
    Toml.IsLine (headerLine name).1 (headerLine name).2 :=
  .header h

theorem isLine_entryLine {key : String} (h : Toml.IsBareKey key.toList) {levels : Nat}
    (hlevels : levels < Toml.nestingLimit) {v : Toml.Value} {text : List Char}
    (htext : Toml.Writes levels v text) :
    Toml.IsLine (entryLine key v text).1 (entryLine key v text).2 :=
  .entry h hlevels htext

theorem isLine_of_mem_lines (c : Config) :
    ∀ line ∈ c.lines, Toml.IsLine line.1 line.2 := by
  have hstrings {key : String} (h : Toml.IsBareKey key.toList) (items : List String) :
      Toml.IsLine (entryLine key (stringsValue items) (stringsText items)).1
        (entryLine key (stringsValue items) (stringsText items)).2 :=
    isLine_entryLine h (by decide) (writes_stringsText items)
  simp only [lines, List.forall_mem_cons, List.not_mem_nil, false_imp_iff, implies_true, and_true]
  exact ⟨isLine_headerLine (by decide), hstrings (by decide) _, hstrings (by decide) _, .blank,
    isLine_headerLine (by decide), hstrings (by decide) _, .blank, isLine_headerLine (by decide),
    isLine_entryLine (by decide) (by decide) (.string c.output.toList)⟩

/-! ## The document -/

/-- The table that a saved configuration stands for. -/
def table (c : Config) : Toml.Table :=
  [("ecosystem".toList, .table .header [("module_paths".toList, stringsValue c.modulePaths),
      ("lookup_paths".toList, stringsValue c.lookupPaths)]),
    ("modules".toList, .table .header [("exclude".toList, stringsValue c.exclude)]),
    ("output".toList, .table .header [("path".toList, .string c.output.toList)])]

theorem read?_text (c : Config) : Toml.read? c.text = some c.table := by
  have hmark : (Toml.documentText c.lines).head? ≠ some '\uFEFF' := by
    rw [documentText_lines, text, headerText]
    simp
  rw [← documentText_lines, Toml.read?_of_isLine c.isLine_of_mem_lines hmark]
  rfl

/-- No default takes the place of a field that is in the table, also if the field is empty. -/
theorem ofTable?_table (c : Config) : ofTable? c.table = some c := by
  have hecosystem : sectionValues? c.table "ecosystem" ["module_paths", "lookup_paths"] =
      some [some (stringsValue c.modulePaths), some (stringsValue c.lookupPaths)] := rfl
  have hmodules : sectionValues? c.table "modules" ["exclude"] =
      some [some (stringsValue c.exclude)] := rfl
  have houtput : sectionValues? c.table "output" ["path"] =
      some [some (.string c.output.toList)] := rfl
  simp only [ofTable?, hecosystem, hmodules, houtput, Option.bind_eq_bind, Option.bind_some,
    List.getD_cons_zero, List.getD_cons_succ, stringsOr?_stringsValue, stringOr?_string]
  rfl

/-- A configuration is read back from its text. -/
theorem ofText?_text (c : Config) : ofText? c.text = some c := by
  rw [ofText?, read?_text, Option.bind_some, ofTable?_table]

/-! ## Files -/

/-- A file with the text of a configuration is loaded as this configuration. -/
theorem loadFrom_of_write_text {c : Config} {fs fs' : FileSystem} {path : Path}
    (h : fs.write path (Utf8.encode c.text) = .ok fs') : loadFrom fs' path = .ok c := by
  have htext : fs'.readText path = .ok c.text := by
    rw [FileSystem.readText, FileSystem.read_of_write h]
    dsimp only
    rw [Utf8.decode?_encode]
  rw [loadFrom, htext]
  dsimp only
  rw [ofText?_text]

/-- The configuration that is stored first is the default one, and it is loaded as such. -/
theorem loadFrom_of_init {fs fs' : FileSystem} {home path : Path}
    (h : init fs home = (fs', .ok path)) : path = file home ∧ loadFrom fs' path = .ok {} := by
  rw [init] at h
  split at h
  · simp at h
  · split at h
    · simp at h
    · next written hwrite =>
      obtain ⟨rfl, hpath⟩ := Prod.mk.inj h
      obtain rfl := Except.ok.inj hpath
      exact ⟨rfl, loadFrom_of_write_text hwrite⟩

/-- A configuration that is saved in a file is loaded from it with all its fields as they were,
whatever their texts are. No field is replaced by a default, so that builds are configured alike in
any home directory. -/
theorem loadFrom_of_write (c : Config) {fs fs' : FileSystem} {path : Path}
    (h : fs.write path (Utf8.encode c.text) = .ok fs') :
    ofText? c.text = some c ∧ loadFrom fs' path = .ok c ∧
      ∀ home, (loadFrom fs' path).map (·.forBuild home) = .ok (c.forBuild home) := by
  have hload := loadFrom_of_write_text h
  refine ⟨c.ofText?_text, hload, fun home => ?_⟩
  rw [hload]
  rfl

/-- A configuration with texts of all forms: empty, with marks of every kind, and of several lines.
One of its fields has no texts at all. -/
def manifold : Config where
  modulePaths := ["", "~/it's \"here\"", "a\\b", "\n'''\n\"\"\"\"\"", "''\n\\", "\x00\x1B\x7F\r\n"]
  lookupPaths := []
  exclude := ["\"\""]
  output := "\t# 'out\""

/-- It is loaded from the file that it is saved in. -/
theorem loadFrom_of_write_manifold : ∃ fs',
    (⟨.directory [], []⟩ : FileSystem).write (.ofString "saved.toml")
        (Utf8.encode manifold.text) = .ok fs' ∧
      ofText? manifold.text = some manifold ∧
      loadFrom fs' (.ofString "saved.toml") = .ok manifold ∧
      (loadFrom fs' (.ofString "saved.toml")).map (·.forBuild (.ofString "/root")) =
        .ok (manifold.forBuild (.ofString "/root")) := by
  have hwrite : ∃ fs', (⟨.directory [], []⟩ : FileSystem).write (.ofString "saved.toml")
      (Utf8.encode manifold.text) = .ok fs' := ⟨_, rfl⟩
  obtain ⟨fs', h⟩ := hwrite
  obtain ⟨htext, hload, hbuild⟩ := loadFrom_of_write manifold h
  exact ⟨fs', h, htext, hload, hbuild (.ofString "/root")⟩

end PluginDataset.Config
