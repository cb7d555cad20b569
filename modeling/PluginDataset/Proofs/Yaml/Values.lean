import PluginDataset.Fault
import PluginDataset.Proofs.Json.FloatText
import PluginDataset.Proofs.Json.ReadBack

/-!
# The values that documents mean

All numbers of a document are integers of 64 bits, or binary64 numbers that decimals are rounded to,
or not finite. As JSON, where the last ones become `null`, such a value has its objects in order,
and all of its numbers can be printed and read.

## Main definitions

* `Yaml.Value.Proper` says that all numbers of a value are such numbers.
* `Yaml.Yields` says that whatever a computation gives has a property.

## Main results

* `Yaml.proper_of_read?`: the value of a document is proper.
* `Yaml.Value.Proper.toJson`: a proper value as JSON.
* `Documentation.fields_of_ofSource`: the fields of documentation can be printed and read.
-/

namespace PluginDataset.Yaml

open Json (Canonical CanonicalItems CanonicalMembers Readable ReadableItems ReadableMembers)

/-- An integer of 64 bits, a finite number in range, or a number that is not finite. -/
def Number.Proper : Number → Prop
  | .integer n => n.IsInteger
  | .finite x => x.Valid
  | .infinite _ | .notANumber => True

namespace Value

mutual

/-- All numbers inside the value are proper; those inside keys do not count. -/
def Proper : Value → Prop
  | .number n => n.Proper
  | .sequence items => ProperItems items
  | .mapping entries => ProperEntries entries
  | .tagged _ content => Proper content
  | _ => True

def ProperItems : List Value → Prop
  | [] => True
  | v :: rest => Proper v ∧ ProperItems rest

def ProperEntries : List (Value × Value) → Prop
  | [] => True
  | (_, v) :: rest => Proper v ∧ ProperEntries rest

end

theorem properItems_iff {items : List Value} : ProperItems items ↔ ∀ v ∈ items, v.Proper := by
  induction items with
  | nil => simp [ProperItems]
  | cons v rest ih => simp [ProperItems, ih]

theorem properEntries_iff {entries : List (Value × Value)} :
    ProperEntries entries ↔ ∀ p ∈ entries, p.2.Proper := by
  induction entries with
  | nil => simp [ProperEntries]
  | cons p rest ih => simp [ProperEntries, ih]

end Value

/-! ## Scalars -/

theorem valid_of_decimal? {s : List Char} {x : Binary64} (h : decimal? s = some x) : x.Valid := by
  unfold decimal? at h
  dsimp only at h
  split at h
  · exact Binary64.valid_of_ofDecimal? h
  · simp at h

theorem proper_of_float? {s : List Char} {n : Number} (h : float? s = some n) : n.Proper := by
  have hdecimal : ∀ t, (decimal? t).map Number.finite = some n → n.Proper := by
    intro t ht
    obtain ⟨x, hx, rfl⟩ := Option.map_eq_some_iff.1 ht
    exact valid_of_decimal? hx
  have hinfinite : ∀ (infinite : Bool) (negative : Bool) (t : List Char),
      (if infinite then some (.infinite negative) else (decimal? t).map .finite) = some n →
      n.Proper := by
    intro infinite negative t h
    split at h
    · obtain rfl := Option.some.inj h
      trivial
    · exact hdecimal t h
  unfold float? at h
  split at h
  · obtain rfl := Option.some.inj h
    trivial
  · split at h
    · exact hinfinite _ _ _ h
    · split at h
      · simp at h
      · exact hinfinite _ _ _ h
    · exact hinfinite _ _ _ h

theorem isInteger_of_integerMeaning {i : Int} {n : Json.Number}
    (h : integerMeaning i = .value n) : n.IsInteger := by
  unfold integerMeaning at h
  split at h
  · next m hm =>
    obtain rfl := IntegerMeaning.value.inj h
    unfold Json.Number.ofInt? at hm
    split at hm <;> split at hm
    all_goals first | (obtain rfl := Option.some.inj hm; trivial) | simp at hm
  · split at h <;> simp at h

theorem proper_of_float?_or_string {s : List Char} {v : Value}
    (h : (if isPaddedDigits s then some (.string s)
      else match float? s with
        | some x => some (.number x)
        | none => some (.string s)) = some v) : v.Proper := by
  split at h
  · obtain rfl := Option.some.inj h
    trivial
  · split at h
    · next x hx =>
      obtain rfl := Option.some.inj h
      exact proper_of_float? hx
    · obtain rfl := Option.some.inj h
      trivial

theorem proper_of_plainValue? {s : List Char} {v : Value} (h : plainValue? s = some v) :
    v.Proper := by
  unfold plainValue? at h
  dsimp only at h
  split at h
  · obtain rfl := Option.some.inj h
    trivial
  · split at h
    · obtain rfl := Option.some.inj h
      trivial
    · split at h
      · split at h
        · next n hn =>
          obtain rfl := Option.some.inj h
          exact isInteger_of_integerMeaning hn
        · simp at h
        · exact proper_of_float?_or_string h
      · exact proper_of_float?_or_string h

theorem proper_of_taggedScalar? {tag : List UInt8} {plain : Bool} {text : List Char} {v : Value}
    (h : taggedScalar? tag plain text = some v) : v.Proper := by
  unfold taggedScalar? at h
  split at h
  · obtain ⟨b, _, rfl⟩ := Option.map_eq_some_iff.1 h
    trivial
  · split at h
    · split at h
      · split at h
        · next n hn =>
          obtain rfl := Option.some.inj h
          exact isInteger_of_integerMeaning hn
        · simp at h
      · simp at h
    · split at h
      · obtain ⟨n, hn, rfl⟩ := Option.map_eq_some_iff.1 h
        exact proper_of_float? hn
      · split at h
        · split at h
          · obtain rfl := Option.some.inj h
            trivial
          · simp at h
        · split at h
          · exact proper_of_plainValue? h
          · obtain rfl := Option.some.inj h
            trivial

theorem proper_of_scalarValue? {tagDone : Bool} {tag : Option (List UInt8)} {plain : Bool}
    {text : List Char} {v : Value} (h : scalarValue? tagDone tag plain text = some v) :
    v.Proper := by
  unfold scalarValue? at h
  split at h
  · exact proper_of_taggedScalar? h
  · split at h
    · exact proper_of_plainValue? h
    · obtain rfl := Option.some.inj h
      trivial

/-! ## Documents -/

section Yields

variable {α β : Type} {P : α → Prop} {Q : β → Prop}

/-- Whatever the computation gives has the property. -/
def Yields (P : α → Prop) (m : Jumping α) : Prop :=
  ∀ jumps a jumps', m.run jumps = some (a, jumps') → P a

theorem Yields.pure {a : α} (h : P a) : Yields P (pure a) := by
  intro jumps b jumps' hrun
  obtain rfl := (Prod.mk.inj (Option.some.inj hrun)).1
  exact h

theorem Yields.failure : Yields P (failure : Jumping α) := by
  intro jumps b jumps' hrun
  simp at hrun

theorem Yields.lift {m : Option α} (h : ∀ a, m = some a → P a) : Yields P (m : Jumping α) := by
  intro jumps b jumps' hrun
  cases m with
  | none => simp at hrun
  | some a =>
    obtain rfl : a = b := by
      simp at hrun
      exact hrun.1
    exact h a rfl

theorem Yields.bind {m : Jumping β} {f : β → Jumping α} (hm : Yields Q m)
    (hf : ∀ b, Q b → Yields P (f b)) : Yields P (m >>= f) := by
  intro jumps a jumps' hrun
  rw [StateT.run_bind] at hrun
  obtain ⟨⟨b, between⟩, hb, ha⟩ := Option.bind_eq_some_iff.1 hrun
  exact hf b (hm jumps b between hb) between a jumps' ha

theorem Yields.of_any (m : Jumping α) : Yields (fun _ => True) m :=
  fun _ _ _ _ => trivial

theorem Yields.mapM {f : β → Jumping α} (hf : ∀ b, Yields P (f b)) (items : List β) :
    Yields (fun values => ∀ v ∈ values, P v) (items.mapM f) := by
  induction items with
  | nil => exact .pure (by simp)
  | cons b rest ih =>
    rw [List.mapM_cons]
    refine (hf b).bind fun v hv => ih.bind fun values hvalues => .pure ?_
    exact List.forall_mem_cons.2 ⟨hv, hvalues⟩

end Yields

/-- The entries of a mapping are proper if everything inside them is. -/
theorem yields_entries {below : Bool → Tree Nat → Jumping Value}
    (h : ∀ tagDone t, Yields Value.Proper (below tagDone t)) (tagDone : Bool)
    (entries : List (Tree Nat × Tree Nat)) :
    Yields (fun values => ∀ p ∈ values, p.2.Proper) (entries.mapM fun (k, v) => do
      let key ← below tagDone k
      let value ← below false v
      return (key, value)) := by
  refine Yields.mapM (fun p => ?_) entries
  refine (h tagDone p.1).bind fun key _ => ?_
  exact (h false p.2).bind fun value hvalue => .pure hvalue

/-- What a node holds is proper if everything inside it is. -/
theorem yields_contents? {inside : Option (Bool → Tree Nat → Jumping Value)}
    (hinside : ∀ below ∈ inside, ∀ tagDone t, Yields Value.Proper (below tagDone t))
    (tagDone : Bool) (t : Tree Nat) : Yields Value.Proper (contents? inside tagDone t) := by
  have hbelow : Yields (fun below : Bool → Tree Nat → Jumping Value =>
      ∀ tagDone t, Yields Value.Proper (below tagDone t)) (inside : Jumping _) :=
    .lift fun below h => hinside below h
  cases t with
  | «alias» _ => exact .failure
  | scalar anchor tag plain text => exact .lift fun v hv => proper_of_scalarValue? hv
  | sequence anchor tag items =>
    refine hbelow.bind fun below h => ?_
    refine (Yields.mapM (h false) items).bind fun values hvalues => .pure ?_
    exact Value.properItems_iff.2 hvalues
  | mapping anchor tag entries =>
    refine hbelow.bind fun below h => ?_
    refine (yields_entries h tagDone entries).bind fun values hvalues => ?_
    split
    · exact .failure
    · exact .pure (Value.properEntries_iff.2 hvalues)

theorem yields_nodeValue? {inside : Option (Bool → Tree Nat → Jumping Value)}
    (hinside : ∀ below ∈ inside, ∀ tagDone t, Yields Value.Proper (below tagDone t))
    (nodes : List (Nat × Tree Nat)) (tagDone : Bool) (t : Tree Nat) :
    Yields Value.Proper (nodeValue? nodes inside tagDone t) := by
  rw [nodeValue?]
  refine (Yields.of_any _).bind fun t _ => ?_
  refine (yields_contents? hinside _ t).bind fun v hv => ?_
  split
  · exact .pure hv
  · exact .pure hv

/-- Every value of a node is proper. -/
theorem yields_expand? (nodes : List (Nat × Tree Nat)) (depth : Nat) (tagDone : Bool)
    (t : Tree Nat) : Yields Value.Proper (expand? nodes depth tagDone t) := by
  induction depth generalizing tagDone t with
  | zero => exact yields_nodeValue? (by simp) nodes tagDone t
  | succ depth ih =>
    refine yields_nodeValue? (fun below h => ?_) nodes tagDone t
    obtain rfl := Option.some.inj h
    exact ih

/-- The value of a document is proper. -/
theorem proper_of_read? {text : List Char} {v : Value} (h : read? text = some v) : v.Proper := by
  rw [read?] at h
  obtain ⟨tokens, _, h⟩ := Option.bind_eq_some_iff.1 h
  obtain ⟨root, _, h⟩ := Option.bind_eq_some_iff.1 h
  obtain ⟨⟨root', names⟩, _, h⟩ := Option.bind_eq_some_iff.1 h
  obtain ⟨⟨value, jumps⟩, hrun, hvalue⟩ := Option.bind_eq_some_iff.1 h
  obtain rfl := Option.some.inj hvalue
  exact yields_expand? _ _ _ _ _ _ _ hrun

/-! ## Values as JSON -/

namespace Value

theorem readable_numberJson {n : Number} (h : n.Proper) : (numberJson n).Readable := by
  cases n with
  | integer n => exact ⟨n, Json.Number.IsInteger.readNumber?_text h⟩
  | finite x =>
    obtain ⟨t, y, htext, hvalue⟩ := Json.exists_numberText_text h
    have hread := Json.NumberText.readNumber?_text hvalue
    rw [htext] at hread
    exact ⟨.float y, hread⟩
  | infinite _ => trivial
  | notANumber => trivial

theorem canonical_numberJson (n : Number) : (numberJson n).Canonical := by
  cases n <;> trivial

mutual

/-- A proper value as JSON has its objects in order, and all of its numbers are read. -/
theorem Proper.toJson {v : Value} (h : v.Proper) {j : Json} (hj : v.toJson = .ok j) :
    j.Canonical ∧ j.Readable := by
  match v, h with
  | .null, _ | .bool _, _ | .string _, _ =>
    obtain rfl := Except.ok.inj hj
    exact ⟨trivial, trivial⟩
  | .number n, h =>
    obtain rfl := Except.ok.inj hj
    exact ⟨canonical_numberJson n, readable_numberJson h⟩
  | .sequence items, h =>
    rw [Value.toJson] at hj
    obtain ⟨js, hjs, rfl⟩ := map_eq_ok_iff.1 hj
    exact itemsToJson_of_proper h hjs
  | .mapping entries, h =>
    rw [Value.toJson] at hj
    obtain ⟨members, hmembers, rfl⟩ := map_eq_ok_iff.1 hj
    obtain ⟨hcanonical, hreadable⟩ := entriesToJson_of_proper h hmembers
    exact ⟨Json.canonical_object_ofList hcanonical, Json.readable_object_ofList hreadable⟩
  | .tagged tag content, h =>
    rw [Value.toJson] at hj
    obtain ⟨j, hcontent, rfl⟩ := map_eq_ok_iff.1 hj
    have hproper : content.Proper := h
    obtain ⟨hcanonical, hreadable⟩ := hproper.toJson hcontent
    exact ⟨⟨List.pairwise_singleton _ _, hcanonical, trivial⟩, hreadable, trivial⟩

theorem itemsToJson_of_proper {items : List Value} (h : ProperItems items) {js : List Json}
    (hjs : itemsToJson items = .ok js) : CanonicalItems js ∧ ReadableItems js := by
  match items, h with
  | [], _ =>
    obtain rfl := Except.ok.inj hjs
    exact ⟨trivial, trivial⟩
  | v :: rest, h =>
    rw [itemsToJson] at hjs
    obtain ⟨j, hj, hjs⟩ := bind_eq_ok_iff.1 hjs
    obtain ⟨js', hjs', hjs⟩ := bind_eq_ok_iff.1 hjs
    obtain rfl := Except.ok.inj hjs
    obtain ⟨hcanonical, hreadable⟩ := h.1.toJson hj
    obtain ⟨hcanonicals, hreadables⟩ := itemsToJson_of_proper h.2 hjs'
    exact ⟨⟨hcanonical, hcanonicals⟩, hreadable, hreadables⟩

theorem entriesToJson_of_proper {entries : List (Value × Value)} (h : ProperEntries entries)
    {members : List (String × Json)} (hmembers : entriesToJson entries = .ok members) :
    CanonicalMembers members ∧ ReadableMembers members := by
  match entries, h with
  | [], _ =>
    obtain rfl := Except.ok.inj hmembers
    exact ⟨trivial, trivial⟩
  | (k, v) :: rest, h =>
    rw [entriesToJson] at hmembers
    obtain ⟨key, _, hmembers⟩ := bind_eq_ok_iff.1 hmembers
    obtain ⟨j, hj, hmembers⟩ := bind_eq_ok_iff.1 hmembers
    obtain ⟨js, hjs, hmembers⟩ := bind_eq_ok_iff.1 hmembers
    obtain rfl := Except.ok.inj hmembers
    obtain ⟨hcanonical, hreadable⟩ := h.1.toJson hj
    obtain ⟨hcanonicals, hreadables⟩ := entriesToJson_of_proper h.2 hjs
    exact ⟨⟨hcanonical, hcanonicals⟩, hreadable, hreadables⟩

end

end Value

end PluginDataset.Yaml

namespace PluginDataset.Documentation

/-- The fields of documentation are in order, and all of their numbers are read. -/
theorem fields_of_ofSource {source : List Char} {d : Documentation} (h : ofSource source = .ok d)
    {key : String} {v : Json} (hv : (key, v) ∈ d.fields) : v.Canonical ∧ v.Readable := by
  have hfields : ∃ text, fieldsOfText text = .ok d.fields := by
    unfold ofSource at h
    split at h
    · simp at h
    · split at h
      · simp at h
      · next text _ =>
        obtain ⟨fields, hfields, rfl⟩ := map_eq_ok_iff.1 h
        exact ⟨text, hfields⟩
  obtain ⟨text, hfields⟩ := hfields
  unfold fieldsOfText at hfields
  split at hfields
  · simp at hfields
  · next value hvalue =>
    split at hfields
    · simp at hfields
    · next json hjson =>
      obtain ⟨hcanonical, hreadable⟩ := (Yaml.proper_of_read? hvalue).toJson hjson
      cases json with
      | object members =>
        obtain rfl := Except.ok.inj hfields
        exact ⟨Json.canonicalMembers_iff.1 hcanonical.2 _ hv,
          Json.readableMembers_iff.1 hreadable _ hv⟩
      | _ => simp [members] at hfields

end PluginDataset.Documentation
