import PluginDataset.Files.FileSystem

/-!
# Walking paths

Where a path leads depends only on which places hold files, directories and links, and on the
targets of the links. A file that has been written is therefore found again where it was written.

## Main definitions

* `Node.kind` forgets the contents of files and directories; `FileSystem.kind?` looks at a place.
* `Node.bare` forgets the entries of directories alone; `FileSystem.bare?` looks at a place.
* `FileSystem.Leads` derives where a route leads, with one rule for each step of a walk.
* `FileSystem.Writable` says that a file can be written at a place.

## Main results

* `FileSystem.follow_eq_ok_iff`: what walks find is what can be derived.
* `Node.bare?_set`: setting a file or an empty directory changes what is at its own place alone.
* `FileSystem.read_of_write`: what has been written to a path is read from it.
-/

namespace PluginDataset

/-- What a node is, without its contents. -/
inductive NodeKind where
  | file
  | link (target : Path)
  | directory
deriving DecidableEq, Repr

namespace Node

/-- The kind of a node. -/
def kind : Node → NodeKind
  | .file _ => .file
  | .link target => .link target
  | .directory _ => .directory

/-- The kind of the node at a place. -/
def kind? (n : Node) (place : Place) : Option NodeKind :=
  (n.at? place).map kind

@[simp] theorem at?_nil (n : Node) : n.at? [] = some n := by
  cases n <;> rfl

@[simp] theorem kind?_nil (n : Node) : n.kind? [] = some n.kind := by
  cases n <;> rfl

theorem kind_eq_directory {n : Node} : n.kind = .directory ↔ ∃ entries, n = .directory entries := by
  cases n <;> simp [kind]

theorem kind?_cons {entries : List (FileName × Node)} (name : FileName) (rest : Place) :
    (Node.directory entries).kind? (name :: rest) =
      (entries.lookup name).bind fun child => child.kind? rest := by
  rw [kind?, at?]
  cases entries.lookup name <;> rfl

/-- Nothing is inside a file or a link. -/
theorem kind?_cons_of_ne {n : Node} (h : n.kind ≠ .directory) (name : FileName) (rest : Place) :
    n.kind? (name :: rest) = none := by
  cases n with
  | file _ => rfl
  | link _ => rfl
  | directory _ => exact absurd rfl h

/-- An entry of a directory is at the place of the directory with its name. -/
theorem at?_concat (n : Node) (place : Place) (name : FileName) :
    n.at? (place ++ [name]) =
      match n.at? place with
      | some (.directory entries) => entries.lookup name
      | _ => none := by
  induction place generalizing n with
  | nil =>
    cases n with
    | file _ => rfl
    | link _ => rfl
    | directory entries =>
      rw [List.nil_append, at?_nil, at?]
      cases hlookup : entries.lookup name <;> simp [hlookup]
  | cons first rest ih =>
    cases n with
    | file _ => rfl
    | link _ => rfl
    | directory entries =>
      rw [List.cons_append, at?, at?]
      cases entries.lookup first with
      | none => rfl
      | some child => exact ih child

/-- What contains something is a directory. -/
theorem kind?_of_isSome_append {n : Node} {outer inner : Place} (hinner : inner ≠ [])
    (h : (n.kind? (outer ++ inner)).isSome) : n.kind? outer = some .directory := by
  induction outer generalizing n with
  | nil =>
    obtain ⟨name, rest, rfl⟩ := List.exists_cons_of_ne_nil hinner
    by_cases hn : n.kind = .directory
    · rw [kind?_nil, hn]
    · rw [List.nil_append, kind?_cons_of_ne hn] at h
      exact absurd h (by simp)
  | cons first rest ih =>
    cases n with
    | file _ => exact absurd h (by simp [kind?, at?])
    | link _ => exact absurd h (by simp [kind?, at?])
    | directory entries =>
      rw [List.cons_append, kind?_cons] at h
      rw [kind?_cons]
      cases hlookup : entries.lookup first with
      | none => simp [hlookup] at h
      | some child =>
        rw [hlookup] at h
        exact ih h

theorem lookup_setEntry (name key : FileName) (n : Node) (entries : List (FileName × Node)) :
    (setEntry name n entries).lookup key = if key = name then some n else entries.lookup key := by
  induction entries with
  | nil =>
    by_cases h : key = name
    · simp [setEntry, h]
    · simp [setEntry, List.lookup_cons, beq_eq_false_iff_ne.2 h, h]
  | cons p rest ih =>
    obtain ⟨k, m⟩ := p
    rw [setEntry]
    by_cases hname : name = k
    · subst hname
      by_cases h : key = name
      · simp [h]
      · simp [List.lookup_cons, beq_eq_false_iff_ne.2 h, h]
    · rw [if_neg hname, List.lookup_cons, List.lookup_cons, ih]
      by_cases h : key = k
      · subst h
        simp [Ne.symm hname]
      · simp [beq_eq_false_iff_ne.2 h]

/-- All places around `place` are directories. -/
def Reaches (n : Node) (place : Place) : Prop :=
  ∀ outer inner, inner ≠ [] → place = outer ++ inner → n.kind? outer = some .directory

theorem reaches_of_isSome {n : Node} {place : Place} (h : (n.kind? place).isSome) :
    n.Reaches place := by
  rintro outer inner hinner rfl
  exact kind?_of_isSome_append hinner h

theorem reaches_concat {n : Node} {place : Place} (h : n.kind? place = some .directory)
    (name : FileName) : n.Reaches (place ++ [name]) := by
  intro outer inner hinner heq
  obtain ⟨init, last, rfl⟩ := (List.eq_nil_or_concat inner).resolve_left hinner
  rw [List.concat_eq_append, ← List.append_assoc] at heq
  obtain rfl := (List.append_inj' heq rfl).1
  by_cases hinit : init = []
  · rwa [hinit, List.append_nil] at h
  · exact kind?_of_isSome_append hinit (by simp [h])

/-- The step of `Reaches`: the first name leads to an entry, unless it is the last one. -/
theorem Reaches.cons {n : Node} {name : FileName} {rest : Place} (h : n.Reaches (name :: rest)) :
    ∃ entries, n = .directory entries ∧
      (rest = [] ∨ ∃ child, entries.lookup name = some child ∧ child.Reaches rest) := by
  have hn : n.kind? [] = some .directory := h [] (name :: rest) (by simp) rfl
  obtain ⟨entries, rfl⟩ := kind_eq_directory.1 (by simpa using hn)
  refine ⟨entries, rfl, ?_⟩
  by_cases hrest : rest = []
  · exact .inl hrest
  · have hname := h [name] rest hrest rfl
    rw [kind?_cons] at hname
    obtain ⟨child, hchild, _⟩ := Option.bind_eq_some_iff.1 hname
    refine .inr ⟨child, hchild, fun outer inner hinner heq => ?_⟩
    have houter := h (name :: outer) inner hinner (by rw [heq]; rfl)
    rwa [kind?_cons, hchild] at houter

/-- A node that is set is found at its place. -/
theorem at?_set {n : Node} {place : Place} (h : n.Reaches place) (new : Node) :
    (set new place n).at? place = some new := by
  induction place generalizing n with
  | nil => cases n <;> cases new <;> rfl
  | cons name rest ih =>
    obtain ⟨entries, rfl, hrest⟩ := h.cons
    rw [set, at?, lookup_setEntry, if_pos rfl]
    rcases hrest with rfl | ⟨child, hchild, hreaches⟩
    · cases new <;> rfl
    · rw [hchild]
      exact ih hreaches

/-- A node without its entries. -/
def bare : Node → Node
  | .directory _ => .directory []
  | n => n

/-- What is at a place, without its entries. -/
def bare? (n : Node) (place : Place) : Option Node :=
  (n.at? place).map bare

/-- Nothing is inside the node. -/
def IsBare (n : Node) : Prop :=
  n.bare = n

@[simp] theorem bare?_nil (n : Node) : n.bare? [] = some n.bare := by
  simp [bare?]

theorem bare?_cons {entries : List (FileName × Node)} (name : FileName) (rest : Place) :
    (Node.directory entries).bare? (name :: rest) =
      (entries.lookup name).bind fun child => child.bare? rest := by
  rw [bare?, at?]
  cases entries.lookup name <;> rfl

theorem IsBare.eq {n : Node} (h : n.IsBare) : n.bare = n :=
  h

theorem IsBare.bare?_cons {n : Node} (h : n.IsBare) (name : FileName) (rest : Place) :
    n.bare? (name :: rest) = none := by
  cases n with
  | file _ => rfl
  | link _ => rfl
  | directory entries =>
    obtain rfl : [] = entries := Node.directory.inj h
    rfl

theorem isBare_of_ne {n : Node} (h : n.kind ≠ .directory) : n.IsBare := by
  cases n with
  | file _ => rfl
  | link _ => rfl
  | directory _ => exact absurd rfl h

theorem kind?_eq_map_bare? (n : Node) (place : Place) :
    n.kind? place = (n.bare? place).map kind := by
  have hkind : ∀ m : Node, m.bare.kind = m.kind := by
    intro m
    cases m <;> rfl
  simp [kind?, bare?, Function.comp_def, hkind]

/-- Setting a node without entries, in place of a file or where nothing is, changes what is at its
place alone. -/
theorem bare?_set {n new : Node} {place : Place} (h : n.Reaches place)
    (hplace : n.kind? place ≠ some .directory) (hnew : new.IsBare) (q : Place) :
    (set new place n).bare? q = if q = place then some new else n.bare? q := by
  induction place generalizing n q with
  | nil =>
    have hn : n.IsBare := isBare_of_ne (by simpa using hplace)
    have hset : set new [] n = new := by cases n <;> rfl
    rw [hset]
    cases q with
    | nil => rw [Node.bare?_nil, hnew.eq, if_pos rfl]
    | cons name rest => simp [hnew.bare?_cons, hn.bare?_cons]
  | cons name rest ih =>
    obtain ⟨entries, rfl, hrest⟩ := h.cons
    cases q with
    | nil => rfl
    | cons key inner =>
      rw [kind?_cons] at hplace
      rw [set, Node.bare?_cons, lookup_setEntry, Node.bare?_cons]
      by_cases hkey : key = name
      · subst hkey
        rw [if_pos rfl, Option.bind_some]
        cases hlookup : entries.lookup key with
        | none =>
          -- nothing was there, so that the node is the last part of the place
          obtain rfl : rest = [] := by simpa [hlookup] using hrest
          cases inner with
          | nil => simp [set, hnew.eq]
          | cons _ _ => simp [set, hnew.bare?_cons]
        | some child =>
          have hreaches : child.Reaches rest := by
            rcases hrest with rfl | ⟨_, hchild, hreaches⟩
            · exact fun outer inner hinner heq =>
                absurd (List.append_eq_nil_iff.1 heq.symm).2 hinner
            · obtain rfl := Option.some.inj (hlookup.symm.trans hchild)
              exact hreaches
          rw [hlookup] at hplace
          simpa using ih hreaches hplace inner
      · rw [if_neg hkey, if_neg (by simp [hkey])]

/-- Setting a file in place of a file, or where nothing is, changes the kind of its place alone. -/
theorem kind?_set {n : Node} {place : Place} (h : n.Reaches place)
    (hplace : n.kind? place ≠ some .directory) (bytes : List UInt8) (q : Place) :
    (set (.file bytes) place n).kind? q = if q = place then some .file else n.kind? q := by
  have hfile : (file bytes).IsBare := rfl
  rw [kind?_eq_map_bare?, bare?_set h hplace hfile, kind?_eq_map_bare?]
  split <;> rfl

end Node

namespace FileSystem

variable {fs : FileSystem}

/-- The kind of the node at a place. -/
def kind? (fs : FileSystem) (place : Place) : Option NodeKind :=
  fs.top.kind? place

/-- What is at a place, without its entries. -/
def bare? (fs : FileSystem) (place : Place) : Option Node :=
  fs.top.bare? place

theorem kind?_eq_map_bare? (fs : FileSystem) (place : Place) :
    fs.kind? place = (fs.bare? place).map Node.kind :=
  fs.top.kind?_eq_map_bare? place

theorem kind?_of_at? {place : Place} {n : Node} (h : fs.at? place = some n) :
    fs.kind? place = some n.kind := by
  rw [kind?, Node.kind?, show fs.top.at? place = _ from h]
  rfl

theorem kind?_concat {place : Place} {entries : List (FileName × Node)}
    (h : fs.at? place = some (.directory entries)) (n : FileName) :
    fs.kind? (place ++ [n]) = (entries.lookup n).map Node.kind := by
  rw [kind?, Node.kind?, Node.at?_concat, show fs.top.at? place = _ from h]

theorem exists_entries_of_kind? {place : Place} (h : fs.kind? place = some .directory) :
    ∃ entries, fs.at? place = some (.directory entries) := by
  obtain ⟨node, hat, hnode⟩ := Option.map_eq_some_iff.1 h
  obtain ⟨entries, rfl⟩ := Node.kind_eq_directory.1 hnode
  exact ⟨entries, hat⟩

/-- One step of a walk, by the kinds of the nodes that it meets. -/
theorem walk_cons (purpose : Purpose) (slash : Bool) (onLink : Route → Except FileFault Goal)
    (place : Place) (part : Component) (rest : List Component) :
    fs.walk purpose slash onLink place (part :: rest) =
      match fs.kind? place with
      | none => .error .notFound
      | some .directory =>
        match part with
        | .top => fs.walk purpose slash onLink [] rest
        | .here => fs.walk purpose slash onLink place rest
        | .up => fs.walk purpose slash onLink place.dropLast rest
        | .name n =>
          if rest = [] ∧ purpose = .write ∧ slash then .error .isADirectory
          else
            match fs.kind? (place ++ [n]) with
            | none => if rest = [] then .ok (.missing place n) else .error .notFound
            | some (.link target) =>
              if rest = [] ∧ purpose = .inspect then .ok (.found (place ++ [n]) slash)
              else if target.bytes = [] then .error .notFound
              else
                onLink ⟨(route place target).start, (route place target).parts ++ rest,
                  slash || (rest = [] && (route place target).slash)⟩
            | some _ => fs.walk purpose slash onLink (place ++ [n]) rest
      | some _ => .error .notADirectory := by
  rw [walk, kind?, Node.kind?, FileSystem.at?]
  cases hplace : fs.top.at? place with
  | none => rfl
  | some node =>
    cases node with
    | file _ => rfl
    | link _ => rfl
    | directory entries =>
      cases part with
      | name n =>
        simp only [Option.map_some, Node.kind, kind?_concat hplace n]
        cases entries.lookup n with
        | none => rfl
        | some child => cases child <;> rfl
      | _ => rfl

/-- A walk that succeeds, with one rule for each thing that a step can do. At most `links` links
are followed on the way. -/
inductive Leads (fs : FileSystem) (purpose : Purpose) : (links : Nat) → Route → Goal → Prop where
  | arrived {links : Nat} {place : Place} {slash : Bool} :
    Leads fs purpose links ⟨place, [], slash⟩ (.found place slash)
  | top {links : Nat} {place : Place} {rest : List Component} {slash : Bool} {g : Goal}
    (hplace : fs.kind? place = some .directory) (h : Leads fs purpose links ⟨[], rest, slash⟩ g) :
    Leads fs purpose links ⟨place, .top :: rest, slash⟩ g
  | here {links : Nat} {place : Place} {rest : List Component} {slash : Bool} {g : Goal}
    (hplace : fs.kind? place = some .directory)
    (h : Leads fs purpose links ⟨place, rest, slash⟩ g) :
    Leads fs purpose links ⟨place, .here :: rest, slash⟩ g
  | up {links : Nat} {place : Place} {rest : List Component} {slash : Bool} {g : Goal}
    (hplace : fs.kind? place = some .directory)
    (h : Leads fs purpose links ⟨place.dropLast, rest, slash⟩ g) :
    Leads fs purpose links ⟨place, .up :: rest, slash⟩ g
  | missing {links : Nat} {place : Place} {n : FileName} {slash : Bool}
    (hplace : fs.kind? place = some .directory) (hslash : ¬(purpose = .write ∧ slash))
    (hn : fs.kind? (place ++ [n]) = none) :
    Leads fs purpose links ⟨place, [.name n], slash⟩ (.missing place n)
  | entry {links : Nat} {place : Place} {n : FileName} {rest : List Component} {slash : Bool}
    {g : Goal} (hplace : fs.kind? place = some .directory)
    (hslash : ¬(rest = [] ∧ purpose = .write ∧ slash))
    (hn : fs.kind? (place ++ [n]) = some .file ∨ fs.kind? (place ++ [n]) = some .directory)
    (h : Leads fs purpose links ⟨place ++ [n], rest, slash⟩ g) :
    Leads fs purpose links ⟨place, .name n :: rest, slash⟩ g
  | inspected {links : Nat} {place : Place} {n : FileName} {slash : Bool} {target : Path}
    (hplace : fs.kind? place = some .directory) (hpurpose : purpose = .inspect)
    (hn : fs.kind? (place ++ [n]) = some (.link target)) :
    Leads fs purpose links ⟨place, [.name n], slash⟩ (.found (place ++ [n]) slash)
  | link {links : Nat} {place : Place} {n : FileName} {rest : List Component} {slash : Bool}
    {target : Path} {g : Goal} (hplace : fs.kind? place = some .directory)
    (hslash : ¬(rest = [] ∧ purpose = .write ∧ slash))
    (hpurpose : ¬(rest = [] ∧ purpose = .inspect))
    (hn : fs.kind? (place ++ [n]) = some (.link target)) (htarget : target.bytes ≠ [])
    (h : Leads fs purpose links ⟨(route place target).start, (route place target).parts ++ rest,
      slash || (rest = [] && (route place target).slash)⟩ g) :
    Leads fs purpose (links + 1) ⟨place, .name n :: rest, slash⟩ g

/-- A walk that succeeds can be derived, if the links that it follows can. -/
theorem leads_of_walk {purpose : Purpose} {links : Nat} {onLink : Route → Except FileFault Goal}
    (honLink : ∀ r g, onLink r = .ok g → ∃ k, links = k + 1 ∧ Leads fs purpose k r g)
    {place : Place} {parts : List Component} {slash : Bool} {g : Goal}
    (h : fs.walk purpose slash onLink place parts = .ok g) :
    Leads fs purpose links ⟨place, parts, slash⟩ g := by
  induction parts generalizing place with
  | nil =>
    obtain rfl := Except.ok.inj h
    exact .arrived
  | cons part rest ih =>
    rw [walk_cons] at h
    cases hplace : fs.kind? place with
    | none => simp [hplace] at h
    | some kind =>
      rw [hplace] at h
      cases kind with
      | file => simp at h
      | link target => simp at h
      | directory =>
        cases part with
        | top => exact .top hplace (ih h)
        | here => exact .here hplace (ih h)
        | up => exact .up hplace (ih h)
        | name n =>
          dsimp only at h
          by_cases hslash : rest = [] ∧ purpose = .write ∧ slash
          · simp [hslash] at h
          · rw [if_neg hslash] at h
            cases hn : fs.kind? (place ++ [n]) with
            | none =>
              rw [hn] at h
              by_cases hrest : rest = []
              · subst hrest
                obtain rfl := Except.ok.inj h
                exact .missing hplace (fun hw => hslash ⟨rfl, hw⟩) hn
              · simp [hrest] at h
            | some kind =>
              rw [hn] at h
              cases kind with
              | file => exact .entry hplace hslash (.inl hn) (ih h)
              | directory => exact .entry hplace hslash (.inr hn) (ih h)
              | link target =>
                dsimp only at h
                by_cases hpurpose : rest = [] ∧ purpose = .inspect
                · rw [if_pos hpurpose] at h
                  obtain ⟨rfl, hinspect⟩ := hpurpose
                  obtain rfl := Except.ok.inj h
                  exact .inspected hplace hinspect hn
                · rw [if_neg hpurpose] at h
                  by_cases htarget : target.bytes = []
                  · simp [htarget] at h
                  · rw [if_neg htarget] at h
                    obtain ⟨k, rfl, hk⟩ := honLink _ _ h
                    exact .link hplace hslash hpurpose hn htarget hk

/-- A walk that can be derived succeeds, if the links that it follows do. -/
theorem walk_of_leads {purpose : Purpose} {links : Nat} {onLink : Route → Except FileFault Goal}
    (honLink : ∀ k r g, links = k + 1 → Leads fs purpose k r g → onLink r = .ok g) {r : Route}
    {g : Goal} (h : Leads fs purpose links r g) :
    fs.walk purpose r.slash onLink r.start r.parts = .ok g := by
  induction h with
  | arrived => rfl
  | top hplace _ ih =>
    rw [walk_cons, hplace]
    exact ih honLink
  | here hplace _ ih =>
    rw [walk_cons, hplace]
    exact ih honLink
  | up hplace _ ih =>
    rw [walk_cons, hplace]
    exact ih honLink
  | missing hplace hslash hn =>
    rw [walk_cons, hplace]
    dsimp only
    rw [if_neg fun h => hslash h.2, hn]
    rfl
  | entry hplace hslash hn _ ih =>
    rw [walk_cons, hplace]
    dsimp only
    rw [if_neg hslash]
    rcases hn with hn | hn
    · rw [hn]
      exact ih honLink
    · rw [hn]
      exact ih honLink
  | inspected hplace hpurpose hn =>
    subst hpurpose
    rw [walk_cons, hplace]
    dsimp only
    rw [if_neg (by simp), hn]
    rfl
  | link hplace hslash hpurpose hn htarget h _ =>
    rw [walk_cons, hplace]
    dsimp only
    rw [if_neg hslash, hn]
    dsimp only
    rw [if_neg hpurpose, if_neg htarget]
    exact honLink _ _ _ rfl h

/-- A route leads to a goal exactly if that can be derived. -/
theorem follow_eq_ok_iff {purpose : Purpose} {links : Nat} {r : Route} {g : Goal} :
    fs.follow purpose links r = .ok g ↔ Leads fs purpose links r g := by
  induction links generalizing r g with
  | zero =>
    rw [follow]
    exact ⟨leads_of_walk (by simp), walk_of_leads (by simp)⟩
  | succ k ih =>
    rw [follow]
    constructor
    · exact leads_of_walk fun r g h => ⟨k, rfl, ih.1 h⟩
    · refine walk_of_leads fun k' r g hk h => ?_
      obtain rfl := Nat.succ.inj hk
      exact ih.2 h

/-! ## What a written path leads to -/

/-- A missing name is missing in a directory. -/
theorem Leads.missing_kind {purpose : Purpose} {links : Nat} {r : Route} {directory : Place}
    {name : FileName} (h : Leads fs purpose links r (.missing directory name)) :
    fs.kind? directory = some .directory ∧ fs.kind? (directory ++ [name]) = none := by
  generalize hg : Goal.missing directory name = g at h
  induction h with
  | arrived => simp at hg
  | inspected => simp at hg
  | missing hplace _ hn =>
    obtain ⟨rfl, rfl⟩ := Goal.missing.inj hg
    exact ⟨hplace, hn⟩
  | top _ _ ih => exact ih hg
  | here _ _ ih => exact ih hg
  | up _ _ ih => exact ih hg
  | entry _ _ _ _ ih => exact ih hg
  | link _ _ _ _ _ _ ih => exact ih hg

end FileSystem

/-- The place where a path leads, or would lead if its last name were there. -/
def Goal.place : Goal → Place
  | .found place _ => place
  | .missing directory name => directory ++ [name]

/-- Whether only a directory would do. -/
def Goal.slash : Goal → Bool
  | .found _ slash => slash
  | .missing _ _ => false

namespace FileSystem

variable {fs : FileSystem}

/-- A file can be written at a place: directories lead there, and nothing but a file is there. -/
structure Writable (fs : FileSystem) (place : Place) : Prop where
  reaches : fs.top.Reaches place
  kind : fs.kind? place = none ∨ fs.kind? place = some .file

theorem Writable.kind?_set {place : Place} (h : fs.Writable place) (bytes : List UInt8)
    (q : Place) :
    (fs.set place (.file bytes)).kind? q = if q = place then some .file else fs.kind? q := by
  refine Node.kind?_set h.reaches (fun hdirectory => ?_) bytes q
  rcases h.kind with hkind | hkind
  · exact absurd (hkind.symm.trans hdirectory) (by simp)
  · exact absurd (hkind.symm.trans hdirectory) (by simp)

theorem Writable.kind?_set_self {place : Place} (h : fs.Writable place) (bytes : List UInt8) :
    (fs.set place (.file bytes)).kind? place = some .file := by
  rw [h.kind?_set, if_pos rfl]

/-- Writing a file leaves the kinds of all nodes alone. -/
theorem Writable.kind?_set_of_eq_some {place : Place} (h : fs.Writable place) (bytes : List UInt8)
    {q : Place} {kind : NodeKind} (hq : fs.kind? q = some kind) :
    (fs.set place (.file bytes)).kind? q = some kind := by
  rw [h.kind?_set]
  by_cases hplace : q = place
  · subst hplace
    rcases h.kind with hkind | hkind
    · exact absurd (hkind.symm.trans hq) (by simp)
    · rw [if_pos rfl]
      exact hkind.symm.trans hq
  · rw [if_neg hplace]
    exact hq

/-- A path along which a file can be written leads to the file once it has been written, for use as
well as for writing. -/
theorem Leads.set_file {links : Nat} {r : Route} {g : Goal} (h : Leads fs .write links r g)
    (hwritable : fs.Writable g.place) (bytes : List UInt8) (purpose : Purpose)
    (hpurpose : purpose ≠ .inspect) :
    Leads (fs.set g.place (.file bytes)) purpose links r (.found g.place g.slash) := by
  have hkeep {q : Place} {kind : NodeKind} (hq : fs.kind? q = some kind) :=
    hwritable.kind?_set_of_eq_some bytes hq
  induction h with
  | arrived => exact .arrived
  | top hplace _ ih => exact .top (hkeep hplace) (ih hwritable hkeep)
  | here hplace _ ih => exact .here (hkeep hplace) (ih hwritable hkeep)
  | up hplace _ ih => exact .up (hkeep hplace) (ih hwritable hkeep)
  | @missing links place n slash hplace hslash _ =>
    have hfile := hwritable.kind?_set_self bytes
    -- no separator comes after a name that is to be created
    obtain rfl : slash = false := by simpa using hslash
    exact .entry (hkeep hplace) (by simp) (.inl hfile) .arrived
  | entry hplace hslash hn _ ih =>
    refine .entry (hkeep hplace) (fun hw => hslash ⟨hw.1, rfl, hw.2.2⟩) ?_ (ih hwritable hkeep)
    exact hn.imp hkeep hkeep
  | inspected _ hinspect _ => exact absurd hinspect (by decide)
  | link hplace hslash _ hn htarget _ ih =>
    exact .link (hkeep hplace) (fun hw => hslash ⟨hw.1, rfl, hw.2.2⟩) (fun hi => hpurpose hi.2)
      (hkeep hn) htarget (ih hwritable hkeep)

theorem goal_of_ne_inspect {purpose : Purpose} (hpurpose : purpose ≠ .inspect) {path : Path}
    (h : path.bytes ≠ []) :
    fs.goal purpose path = fs.follow purpose linkLimit (route fs.working path) := by
  simp [goal, h, hpurpose]

theorem bytes_ne_nil_of_goal {purpose : Purpose} {path : Path} {g : Goal}
    (h : fs.goal purpose path = .ok g) : path.bytes ≠ [] := by
  intro hempty
  simp [goal, hempty] at h

/-- A file is written where its path leads, and no separator comes after its name. -/
theorem goal_of_write {path : Path} {bytes : List UInt8} {fs' : FileSystem}
    (h : fs.write path bytes = .ok fs') : ∃ g, fs.goal .write path = .ok g ∧
      fs.Writable g.place ∧ g.slash = false ∧ fs' = fs.set g.place (.file bytes) := by
  rw [write] at h
  cases hgoal : fs.goal .write path with
  | error e => simp [hgoal] at h
  | ok g =>
    rw [hgoal] at h
    refine ⟨g, rfl, ?_⟩
    have hne := bytes_ne_nil_of_goal hgoal
    rw [goal_of_ne_inspect (by decide) hne] at hgoal
    cases g with
    | missing directory name =>
      obtain ⟨hdirectory, hname⟩ := (follow_eq_ok_iff.1 hgoal).missing_kind
      exact ⟨⟨Node.reaches_concat hdirectory name, .inl hname⟩, rfl, (Except.ok.inj h).symm⟩
    | found place slash =>
      dsimp only at h
      split at h
      · next before hplace =>
        have hfile : fs.kind? place = some .file := kind?_of_at? hplace
        cases slash with
        | true => simp at h
        | false =>
          have hsome : (fs.top.kind? place).isSome := Option.isSome_of_eq_some hfile
          exact ⟨⟨Node.reaches_of_isSome hsome, .inr hfile⟩, rfl, (Except.ok.inj h).symm⟩
      · simp at h
      · simp at h

/-- The path of a written file leads to it, with what has been written. -/
theorem find_of_write {path : Path} {bytes : List UInt8} {fs' : FileSystem}
    (h : fs.write path bytes = .ok fs') : ∃ place, fs.Writable place ∧
      fs' = fs.set place (.file bytes) ∧ fs'.find .use path = .ok (place, .file bytes) := by
  obtain ⟨g, hgoal, hwritable, hslash, rfl⟩ := goal_of_write h
  refine ⟨g.place, hwritable, rfl, ?_⟩
  have hne := bytes_ne_nil_of_goal hgoal
  rw [goal_of_ne_inspect (by decide) hne] at hgoal
  have hleads := (follow_eq_ok_iff.1 hgoal).set_file hwritable bytes .use (by decide)
  have huse : (fs.set g.place (.file bytes)).goal .use path = .ok (.found g.place g.slash) := by
    rw [goal_of_ne_inspect (by decide) hne]
    exact follow_eq_ok_iff.2 hleads
  have hat : (fs.set g.place (.file bytes)).at? g.place = some (.file bytes) :=
    Node.at?_set hwritable.reaches _
  rw [find, huse]
  dsimp only
  rw [hat, hslash]
  rfl

/-- What has been written to a path is read from it. -/
theorem read_of_write {path : Path} {bytes : List UInt8} {fs' : FileSystem}
    (h : fs.write path bytes = .ok fs') : fs'.read path = .ok bytes := by
  obtain ⟨place, _, _, hfind⟩ := find_of_write h
  rw [read, hfind]

end FileSystem

end PluginDataset
