import PluginDataset.Ecosystem.Installed
import PluginDataset.Proofs.Files.Listing

/-!
# Visible directories of a tree

The directories below a directory are listed in the ascending order of the names that lead to them,
each once, and hidden ones are passed over with all that is in them. The list therefore depends only
on where the tree has directories.

## Main results

* `Node.mem_branches_iff`: which directories are listed.
* `Node.pairwise_branches`: the directories are listed in ascending order.
* `Node.branches_eq_of_kind?`: trees with directories at the same places list the same.
-/

namespace PluginDataset

theorem sortBranches_perm (branches : List (FileName × List (List FileName))) :
    (sortBranches branches).Perm branches :=
  List.mergeSort_perm _ _

/-- Branches with distinct first names are sorted strictly. -/
theorem pairwise_sortBranches {branches : List (FileName × List (List FileName))}
    (h : (branches.map (·.1)).Nodup) :
    (sortBranches branches).Pairwise fun a b => a.1 < b.1 := by
  have hsorted : (sortBranches branches).Pairwise fun a b => decide (a.1 ≤ b.1) = true := by
    refine List.pairwise_mergeSort (fun a b c hab hbc => ?_) (fun a b => ?_) branches
    · rw [decide_eq_true_iff] at hab hbc ⊢
      exact Std.le_trans hab hbc
    · rw [Bool.or_eq_true, decide_eq_true_iff, decide_eq_true_iff]
      exact Std.le_total
  have hdistinct : ((sortBranches branches).map (·.1)).Nodup :=
    ((sortBranches_perm branches).map (·.1)).nodup_iff.2 h
  refine (hsorted.and (List.pairwise_map.1 (List.nodup_iff_pairwise_ne.1 hdistinct))).imp ?_
  rintro a b ⟨hle, hne⟩
  exact Std.lt_of_le_of_ne (of_decide_eq_true hle) hne

namespace Node

theorem isDirectory_iff {n : Node} : n.isDirectory = true ↔ n.kind = .directory := by
  cases n <;> simp [isDirectory, kind]

/-- The branches of the entries of a directory are those of its visible directories. -/
theorem mem_branchesOf {entries : List (FileName × Node)} {name : FileName}
    {inner : List (List FileName)} : (name, inner) ∈ branchesOf entries ↔
      ∃ n, (name, n) ∈ entries ∧ n.kind = .directory ∧ name.isSkipped = false ∧
        inner = n.branches := by
  induction entries with
  | nil => simp [branchesOf]
  | cons e rest ih =>
    obtain ⟨key, n⟩ := e
    rw [branchesOf]
    by_cases hvisible : (n.isDirectory && !key.isSkipped) = true
    · rw [if_pos hvisible, List.mem_cons, ih]
      simp only [Bool.and_eq_true, Bool.not_eq_true', isDirectory_iff] at hvisible
      constructor
      · rintro (heq | ⟨m, hm, hrest⟩)
        · obtain ⟨rfl, rfl⟩ := Prod.mk.inj heq
          exact ⟨n, List.mem_cons_self, hvisible.1, hvisible.2, rfl⟩
        · exact ⟨m, List.mem_cons_of_mem _ hm, hrest⟩
      · rintro ⟨m, hm, hkind, hskipped, rfl⟩
        rcases List.mem_cons.1 hm with heq | hm
        · obtain ⟨rfl, rfl⟩ := Prod.mk.inj heq
          exact .inl rfl
        · exact .inr ⟨m, hm, hkind, hskipped, rfl⟩
    · rw [if_neg hvisible, ih]
      simp only [Bool.and_eq_true, Bool.not_eq_true', isDirectory_iff] at hvisible
      refine exists_congr fun m => ⟨fun ⟨hm, hrest⟩ => ⟨List.mem_cons_of_mem _ hm, hrest⟩, ?_⟩
      rintro ⟨hm, hkind, hskipped, hinner⟩
      rcases List.mem_cons.1 hm with heq | hm
      · obtain ⟨rfl, rfl⟩ := Prod.mk.inj heq
        exact absurd ⟨hkind, hskipped⟩ hvisible
      · exact ⟨hm, hkind, hskipped, hinner⟩

theorem map_branchesOf_sublist (entries : List (FileName × Node)) :
    ((branchesOf entries).map (·.1)).Sublist (entries.map (·.1)) := by
  induction entries with
  | nil => exact List.Sublist.slnil
  | cons e rest ih =>
    obtain ⟨key, n⟩ := e
    rw [branchesOf]
    split
    · exact ih.cons_cons key
    · exact ih.cons key

/-- The directories below a directory: its visible directories, and those below them. -/
theorem mem_branches_directory {entries : List (FileName × Node)} {names : List FileName} :
    names ∈ (directory entries).branches ↔ ∃ name n rest, (name, n) ∈ entries ∧
      n.kind = .directory ∧ name.isSkipped = false ∧ names = name :: rest ∧
        (rest = [] ∨ rest ∈ n.branches) := by
  rw [branches, List.mem_flatMap]
  constructor
  · rintro ⟨⟨name, inner⟩, hmem, hnames⟩
    obtain ⟨n, hn, hkind, hskipped, rfl⟩ := mem_branchesOf.1 ((sortBranches_perm _).mem_iff.1 hmem)
    rcases List.mem_cons.1 hnames with rfl | hnames
    · exact ⟨name, n, [], hn, hkind, hskipped, rfl, .inl rfl⟩
    · obtain ⟨rest, hrest, rfl⟩ := List.mem_map.1 hnames
      exact ⟨name, n, rest, hn, hkind, hskipped, rfl, .inr hrest⟩
  · rintro ⟨name, n, rest, hn, hkind, hskipped, rfl, hrest⟩
    have hmem := mem_branchesOf.2 ⟨n, hn, hkind, hskipped, rfl⟩
    refine ⟨(name, n.branches), (sortBranches_perm _).mem_iff.2 hmem, ?_⟩
    rcases hrest with rfl | hrest
    · exact List.mem_cons_self
    · exact List.mem_cons_of_mem _ (List.mem_map_of_mem hrest)

theorem nil_notMem_branches (n : Node) : [] ∉ n.branches := by
  cases n with
  | file _ => exact List.not_mem_nil
  | link _ => exact List.not_mem_nil
  | directory entries =>
    intro h
    obtain ⟨_, _, _, _, _, _, heq, _⟩ := mem_branches_directory.1 h
    simp at heq

/-- The directories that are listed are those to which visible names lead. -/
theorem mem_branches_iff {n : Node} (h : n.HasDistinctNames) {names : List FileName} :
    names ∈ n.branches ↔ names ≠ [] ∧ n.kind? names = some .directory ∧
      ∀ name ∈ names, FileName.isSkipped name = false := by
  induction names generalizing n with
  | nil => simp [nil_notMem_branches]
  | cons name rest ih =>
    cases n with
    | file _ => simp [branches, kind?, at?]
    | link _ => simp [branches, kind?, at?]
    | directory entries =>
      have hnodup := (hasDistinctNames_directory.1 h).1
      rw [mem_branches_directory, kind?_cons]
      constructor
      · rintro ⟨key, n, inner, hn, hkind, hskipped, heq, hinner⟩
        obtain ⟨rfl, rfl⟩ := List.cons.inj heq
        have hlookup := (lookup_eq_some_iff_mem hnodup).2 hn
        rw [hlookup, Option.bind_some]
        refine ⟨by simp, ?_⟩
        rcases hinner with rfl | hinner
        · simp [hkind, hskipped]
        · obtain ⟨_, hdirectory, hvisible⟩ := (ih (h.of_lookup hlookup)).1 hinner
          exact ⟨hdirectory, List.forall_mem_cons.2 ⟨hskipped, hvisible⟩⟩
      · rintro ⟨_, hdirectory, hvisible⟩
        obtain ⟨n, hlookup, hrest⟩ := Option.bind_eq_some_iff.1 hdirectory
        obtain ⟨hskipped, hvisible⟩ := List.forall_mem_cons.1 hvisible
        have hn := (lookup_eq_some_iff_mem hnodup).1 hlookup
        by_cases hinner : rest = []
        · subst hinner
          exact ⟨name, n, [], hn, by simpa using hrest, hskipped, rfl, .inl rfl⟩
        · -- what contains something is itself a directory
          have hkind : n.kind? [] = some .directory :=
            kind?_of_isSome_append hinner (by simp [hrest])
          have hmem := (ih (h.of_lookup hlookup)).2 ⟨hinner, hrest, hvisible⟩
          exact ⟨name, n, rest, hn, by simpa using hkind, hskipped, rfl, .inr hmem⟩

/-- The names that lead to a directory and those inside it start with its own. -/
theorem exists_eq_cons_of_mem {name : FileName} {inner : List (List FileName)}
    {names : List FileName} (h : names ∈ [name] :: inner.map (name :: ·)) :
    ∃ rest, names = name :: rest := by
  rcases List.mem_cons.1 h with rfl | h
  · exact ⟨[], rfl⟩
  · obtain ⟨rest, _, rfl⟩ := List.mem_map.1 h
    exact ⟨rest, rfl⟩

mutual

/-- The directories below a directory are listed in ascending order, each once. -/
theorem pairwise_branches : (n : Node) → n.HasDistinctNames →
    n.branches.Pairwise (· < ·)
  | .file _, _ => List.Pairwise.nil
  | .link _, _ => List.Pairwise.nil
  | .directory entries, h => by
    obtain ⟨hnodup, hentries⟩ := hasDistinctNames_directory.1 h
    have hinner := pairwise_branchesOf entries hentries
    rw [branches, List.pairwise_flatMap]
    constructor
    · rintro ⟨name, inner⟩ hmem
      have hmem := (sortBranches_perm _).mem_iff.1 hmem
      obtain ⟨n, _, _, _, rfl⟩ := mem_branchesOf.1 hmem
      -- a directory comes before those inside it, to which more names lead
      refine List.pairwise_cons.2 ⟨fun names hnames => ?_, ?_⟩
      · obtain ⟨rest, hrest, rfl⟩ := List.mem_map.1 hnames
        obtain ⟨first, others, rfl⟩ : ∃ first others, rest = first :: others :=
          List.exists_cons_of_ne_nil fun heq => nil_notMem_branches n (heq ▸ hrest)
        exact List.cons_lt_cons_iff.2 (.inr ⟨rfl, List.nil_lt_cons first others⟩)
      · refine List.pairwise_map.2 ((hinner _ hmem).imp fun hlt => ?_)
        exact List.cons_lt_cons_iff.2 (.inr ⟨rfl, hlt⟩)
    · have hdistinct : ((branchesOf entries).map (·.1)).Nodup :=
        (map_branchesOf_sublist entries).nodup hnodup
      refine (pairwise_sortBranches hdistinct).imp ?_
      rintro ⟨name, inner⟩ ⟨name', inner'⟩ hlt names hnames names' hnames'
      obtain ⟨rest, rfl⟩ := exists_eq_cons_of_mem hnames
      obtain ⟨rest', rfl⟩ := exists_eq_cons_of_mem hnames'
      exact List.cons_lt_cons_iff.2 (.inl hlt)

theorem pairwise_branchesOf : (entries : List (FileName × Node)) →
    (∀ e ∈ entries, e.2.HasDistinctNames) →
    ∀ b ∈ branchesOf entries, b.2.Pairwise (· < ·)
  | [], _ => by simp [branchesOf]
  | (name, n) :: rest, h => by
    obtain ⟨hn, hrest⟩ := List.forall_mem_cons.1 h
    have hfirst := pairwise_branches n hn
    have hothers := pairwise_branchesOf rest hrest
    rw [branchesOf]
    split
    · exact List.forall_mem_cons.2 ⟨hfirst, hothers⟩
    · exact hothers

end

/-- Trees that have directories at the same places list the same directories. -/
theorem branches_eq_of_kind? {n n' : Node} (h : n.HasDistinctNames) (h' : n'.HasDistinctNames)
    (hkind : ∀ place, n'.kind? place = n.kind? place) : n'.branches = n.branches := by
  have hsorted := pairwise_branches n h
  have hsorted' := pairwise_branches n' h'
  have hnodup {names : List (List FileName)} (hnames : names.Pairwise (· < ·)) : names.Nodup :=
    List.nodup_iff_pairwise_ne.2 (hnames.imp fun {a b} (hlt : a < b) (heq : a = b) =>
      List.lt_irrefl b (heq ▸ hlt))
  have hperm : n'.branches.Perm n.branches :=
    (List.perm_ext_iff_of_nodup (hnodup hsorted') (hnodup hsorted)).2 fun names => by
      rw [mem_branches_iff h', mem_branches_iff h, hkind]
  exact hperm.eq_of_pairwise (fun _ _ _ _ hlt hlt' => absurd hlt' (List.lt_asymm hlt)) hsorted'
    hsorted

end Node

end PluginDataset
