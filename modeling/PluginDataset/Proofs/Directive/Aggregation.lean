import PluginDataset.Directive
import PluginDataset.Keyed

/-!
# The index of directives

The bucket of a directive lists the kinds in the order of aggregation, each once for every attribute
that makes the directive. Overrides replace buckets afterwards, and of several overrides of one
directive the last one stands.

## Main definitions

* `PartKind.declarations` counts the attributes of a kind that make a directive.
* `DirectiveIndex.bucket` is the bucket of a directive in closed form.

## Main results

* `DirectiveIndex.find?_addKind`: what one kind adds to a bucket.
* `DirectiveIndex.find?_aggregate`: the buckets of some kinds before any override.
* `DirectiveIndex.find?_override`: the buckets after some overrides.
* `DirectiveIndex.ofKinds_closedForm`: the whole index.
* `DirectiveIndex.find?_ofKinds_alias`: a private name that is a directive nevertheless.
-/

namespace PluginDataset

/-! ## Declarations -/

namespace PartKind

/-- How many public attributes of this name a kind declares. -/
def publicCount (k : PartKind) (name : String) : Nat :=
  k.attributes.countP fun a => !a.isPrivate && a.name == name

/-- How often a kind makes a directive: once for each public attribute of this name, and the other
name of the action also once for each public action. -/
def declarations (k : PartKind) (key : String) : Nat :=
  k.publicCount key + if key = localActionDirective then k.publicCount actionDirective else 0

/-- Only the action has a second name. -/
theorem count_directivesOf (a : Attribute) (key : String) : (directivesOf a).count key =
    (if !a.isPrivate && a.name == key then 1 else 0) +
      if key = localActionDirective then if !a.isPrivate && a.name == actionDirective then 1 else 0
      else 0 := by
  have hnames : actionDirective ≠ localActionDirective := by decide
  rw [directivesOf]
  cases a.isPrivate with
  | true => simp
  | false =>
    by_cases haction : a.name = actionDirective
    · by_cases hkey : key = localActionDirective
      · subst hkey
        simp [haction, hnames]
      · simp [haction, hkey, Ne.symm hkey, List.count_cons]
    · simp [haction, List.count_cons]

theorem count_directives (k : PartKind) (key : String) :
    k.directives.count key = k.declarations key := by
  rw [directives, declarations, publicCount, publicCount]
  generalize k.attributes = attributes
  induction attributes with
  | nil => simp
  | cons a rest ih =>
    rw [List.flatMap_cons, List.count_append, ih, count_directivesOf, List.countP_cons,
      List.countP_cons]
    by_cases hkey : key = localActionDirective
    · rw [if_pos hkey, if_pos hkey, if_pos hkey]
      omega
    · rw [if_neg hkey, if_neg hkey, if_neg hkey]
      omega

theorem publicCount_eq_zero_iff {k : PartKind} {name : String} :
    k.publicCount name = 0 ↔ ∀ a ∈ k.attributes, a.name = name → a.isPrivate = true := by
  rw [publicCount, List.countP_eq_zero]
  refine forall_congr' fun a => forall_congr' fun _ => ?_
  cases a.isPrivate <;> simp

end PartKind

namespace DirectiveIndex

variable {index : DirectiveIndex}

/-! ## The order of the index -/

theorem ascending_addKind (h : Keyed.Ascending index) (k : PartKind) :
    Keyed.Ascending (addKind index k) := by
  rw [addKind]
  generalize k.directives = directives
  induction directives generalizing index with
  | nil => exact h
  | cons d rest ih => exact ih (Keyed.ascending_update h)

theorem ascending_aggregate (kinds : List PartKind) : Keyed.Ascending (aggregate kinds) := by
  suffices ∀ index, Keyed.Ascending index → Keyed.Ascending (kinds.foldl addKind index) from
    this [] .nil
  induction kinds with
  | nil => exact fun _ h => h
  | cons k rest ih => exact fun _ h => ih _ (ascending_addKind h k)

theorem ascending_override (h : Keyed.Ascending index) (overrides : List DirectiveOverride) :
    Keyed.Ascending (override index overrides) := by
  induction overrides generalizing index with
  | nil => exact h
  | cons o rest ih => exact ih (Keyed.ascending_update h)

theorem ascending_ofKinds (kinds : List PartKind) (overrides : List DirectiveOverride) :
    Keyed.Ascending (ofKinds kinds overrides) :=
  ascending_override (ascending_aggregate kinds) overrides

/-! ## Aggregation -/

/-- A bucket as an index has it: none if no kind is in it. -/
def stored (bucket : List String) : Option (List String) :=
  if bucket = [] then none else some bucket

/-- The kinds of a directive in the order of aggregation, each once for every declaration. -/
def bucket (kinds : List PartKind) (key : String) : List String :=
  kinds.flatMap fun k => List.replicate (k.declarations key) k.name

theorem stored_eq_none_iff {b : List String} : stored b = none ↔ b = [] := by
  rw [stored]
  split
  · next h => simp [h]
  · next h => simp [h]

theorem stored_eq_some_iff {b b' : List String} : stored b = some b' ↔ b ≠ [] ∧ b = b' := by
  rw [stored]
  split
  · next h => simp [h]
  · next h => simp [h]

/-- A directive that is added once more has one kind more in its bucket. -/
theorem find?_add (h : Keyed.Ascending index) (directive kind : String) {key : String}
    {b : List String} (hb : Keyed.find? key index = stored b) :
    Keyed.find? key (add index directive kind) =
      stored (b ++ List.replicate ([directive].count key) kind) := by
  rw [add, Keyed.find?_update h]
  by_cases hkey : key = directive
  · subst hkey
    have hbucket : (Keyed.find? key index).getD [] = b := by
      rw [hb, stored]
      split
      · next hempty => rw [hempty]; rfl
      · rfl
    rw [if_pos rfl, hbucket]
    simp [stored]
  · rw [if_neg hkey, hb]
    simp [Ne.symm hkey]

/-- A kind is added to a bucket once for each time that it makes the directive. -/
theorem find?_addKind (h : Keyed.Ascending index) (k : PartKind) {key : String} {b : List String}
    (hb : Keyed.find? key index = stored b) :
    Keyed.find? key (addKind index k) =
      stored (b ++ List.replicate (k.declarations key) k.name) := by
  rw [addKind, ← PartKind.count_directives]
  generalize k.directives = directives
  induction directives generalizing index b with
  | nil => simpa using hb
  | cons d rest ih =>
    have hadded := ih (Keyed.ascending_update h) (find?_add h d k.name hb)
    rw [List.foldl_cons, ← List.singleton_append, List.count_append,
      ← List.replicate_append_replicate, ← List.append_assoc]
    exact hadded

theorem find?_foldl_addKind (h : Keyed.Ascending index) (kinds : List PartKind) {key : String}
    {b : List String} (hb : Keyed.find? key index = stored b) :
    Keyed.find? key (kinds.foldl addKind index) = stored (b ++ bucket kinds key) := by
  induction kinds generalizing index b with
  | nil => simpa [bucket] using hb
  | cons k rest ih =>
    have hrest := ih (ascending_addKind h k) (find?_addKind h k hb)
    rw [List.foldl_cons, hrest, bucket, bucket, List.flatMap_cons, List.append_assoc]

/-- Before any override the index has the buckets that are not empty. -/
theorem find?_aggregate (kinds : List PartKind) (key : String) :
    Keyed.find? key (aggregate kinds) = stored (bucket kinds key) := by
  have hascending : Keyed.Ascending ([] : DirectiveIndex) := .nil
  have hempty : Keyed.find? key ([] : DirectiveIndex) = stored [] := rfl
  exact find?_foldl_addKind hascending kinds hempty

theorem bucket_append (kinds more : List PartKind) (key : String) :
    bucket (kinds ++ more) key = bucket kinds key ++ bucket more key :=
  List.flatMap_append

/-- No kind is in the bucket of a directive that none of them makes. -/
theorem bucket_eq_nil_iff {kinds : List PartKind} {key : String} :
    bucket kinds key = [] ↔ ∀ k ∈ kinds, k.declarations key = 0 := by
  rw [bucket, List.flatMap_eq_nil_iff]
  simp only [List.replicate_eq_nil_iff]

/-! ## Overrides -/

/-- The last override of a directive replaces its bucket. -/
theorem find?_override (h : Keyed.Ascending index) (overrides : List DirectiveOverride)
    (key : String) : Keyed.find? key (override index overrides) =
      match (overrides.filter (·.key = key)).getLast? with
      | some o => some o.kinds
      | none => Keyed.find? key index := by
  induction overrides generalizing index with
  | nil => rfl
  | cons o rest ih =>
    have hput : Keyed.Ascending (Keyed.put o.key o.kinds index) := Keyed.ascending_update h
    have hrest := ih hput
    rw [override, List.foldl_cons, ← override, hrest, Keyed.find?_put h]
    by_cases hkey : o.key = key
    · rw [List.filter_cons_of_pos (by simpa using hkey), List.getLast?_cons, if_pos hkey.symm]
      cases (rest.filter (·.key = key)).getLast? <;> rfl
    · rw [List.filter_cons_of_neg (by simpa using hkey), if_neg (Ne.symm hkey)]

theorem ascending_standard : Keyed.Ascending standard :=
  ascending_ofKinds _ _

/-- The built-in overrides are in place in the index of the built-in kinds. -/
theorem find?_standard {o : DirectiveOverride} (ho : o ∈ DirectiveOverride.all) :
    Keyed.find? o.key standard = some o.kinds := by
  obtain rfl := List.mem_singleton.1 ho
  rw [standard, ofKinds, find?_override (ascending_aggregate _)]
  rfl

/-! ## The closed form -/

/-- The index of some kinds is in order. It maps an overridden directive to the kinds of its last
override, and any other one to its bucket, unless that is empty. A name that is only declared as
private is no directive, if no override names it and it is not the other name of a public action.
Before the overrides, one kind more extends the buckets that are there. -/
theorem ofKinds_closedForm (kinds : List PartKind) (overrides : List DirectiveOverride) :
    Keyed.Ascending (ofKinds kinds overrides) ∧
    (∀ key, Keyed.find? key (ofKinds kinds overrides) =
      match (overrides.filter (·.key = key)).getLast? with
      | some o => some o.kinds
      | none => if bucket kinds key = [] then none else some (bucket kinds key)) ∧
    (∀ key, (∀ k ∈ kinds, ∀ a ∈ k.attributes, a.name = key → a.isPrivate = true) →
      (∀ o ∈ overrides, o.key ≠ key) →
      (key = localActionDirective →
        ∀ k ∈ kinds, ∀ a ∈ k.attributes, a.name = actionDirective → a.isPrivate = true) →
      Keyed.find? key (ofKinds kinds overrides) = none) ∧
    ∀ i key b, Keyed.find? key (aggregate (kinds.take i)) = some b →
      ∃ more, Keyed.find? key (aggregate (kinds.take (i + 1))) = some (b ++ more) := by
  have hform : ∀ key, Keyed.find? key (ofKinds kinds overrides) =
      match (overrides.filter (·.key = key)).getLast? with
      | some o => some o.kinds
      | none => stored (bucket kinds key) := by
    intro key
    rw [ofKinds, find?_override (ascending_aggregate kinds), find?_aggregate]
  refine ⟨ascending_ofKinds kinds overrides, hform, ?_, ?_⟩
  · intro key hprivate hoverrides haction
    have hnone : overrides.filter (·.key = key) = [] :=
      List.filter_eq_nil_iff.2 fun o ho => by simpa using hoverrides o ho
    have hempty : bucket kinds key = [] := by
      refine bucket_eq_nil_iff.2 fun k hk => ?_
      rw [PartKind.declarations, PartKind.publicCount_eq_zero_iff.2 (hprivate k hk), Nat.zero_add]
      split
      · next hkey => exact PartKind.publicCount_eq_zero_iff.2 (haction hkey k hk)
      · rfl
    rw [hform, hnone]
    exact stored_eq_none_iff.2 hempty
  · intro i key b hb
    rw [find?_aggregate] at hb
    obtain ⟨hne, rfl⟩ := stored_eq_some_iff.1 hb
    refine ⟨bucket kinds[i]?.toList key, ?_⟩
    rw [find?_aggregate, List.take_add_one, bucket_append]
    exact stored_eq_some_iff.2 ⟨by simp [hne], rfl⟩

/-- A kind that declares two public attributes of one name, an action, and a private loop. -/
def loopKind : PartKind :=
  ⟨"Loop", [[⟨"tags", false⟩, ⟨"action", false⟩], [⟨"tags", false⟩, ⟨"loop", true⟩]]⟩

/-- The private attribute of this kind is no directive, and a second kind extends the bucket of the
repeated one. -/
theorem ofKinds_closedForm_loop :
    (∀ k ∈ [loopKind], ∀ a ∈ k.attributes, a.name = "loop" → a.isPrivate = true) ∧
    (∀ o ∈ DirectiveOverride.all, o.key ≠ "loop") ∧
    Keyed.find? "loop" (ofKinds [loopKind] DirectiveOverride.all) = none ∧
    Keyed.find? "tags" (aggregate ([loopKind, PartKind.role].take 1)) = some ["Loop", "Loop"] ∧
    ∃ more, Keyed.find? "tags" (aggregate ([loopKind, PartKind.role].take 2)) =
      some (["Loop", "Loop"] ++ more) := by
  have hprivate : ∀ k ∈ [loopKind], ∀ a ∈ k.attributes, a.name = "loop" → a.isPrivate = true := by
    decide
  have hoverrides : ∀ o ∈ DirectiveOverride.all, o.key ≠ "loop" := by decide
  have htags : Keyed.find? "tags" (aggregate ([loopKind, PartKind.role].take 1)) =
      some ["Loop", "Loop"] := by decide
  refine ⟨hprivate, hoverrides, ?_, htags, ?_⟩
  · exact (ofKinds_closedForm [loopKind] DirectiveOverride.all).2.2.1 "loop" hprivate hoverrides
      (fun hkey => absurd hkey (by decide))
  · exact (ofKinds_closedForm [loopKind, PartKind.role] []).2.2.2 1 "tags" ["Loop", "Loop"] htags

/-- A kind whose only attribute of the name `local_action` is private, beside a public action. -/
def aliasedKind : PartKind :=
  ⟨"A", [[⟨"local_action", true⟩, ⟨"action", false⟩]]⟩

/-- A name that is only declared as private is a directive if it is the other name of the action. -/
theorem find?_ofKinds_alias :
    (∃ k ∈ [aliasedKind], ∃ a ∈ k.attributes, a.name = "local_action") ∧
    (∀ k ∈ [aliasedKind], ∀ a ∈ k.attributes, a.name = "local_action" → a.isPrivate = true) ∧
    Keyed.find? "local_action" (ofKinds [aliasedKind] []) = some ["A"] := by
  decide

end DirectiveIndex

end PluginDataset
