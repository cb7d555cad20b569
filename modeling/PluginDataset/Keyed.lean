/-!
# Lists in ascending order of keys

Finite maps from texts, given as lists of pairs in ascending order of distinct keys. Texts are
compared by code points, which is also the order of their UTF-8 bytes.

## Main definitions

* `Keyed.put` sets the value of a key, `Keyed.update` changes it.
* `Keyed.ofList` sorts pairs; the last value of a repeated key stands.
* `Keyed.Ascending` says that a list is in order.

## Main results

* `Keyed.ascending_ofList`: a sorted list is in order.
* `Keyed.ofList_of_ascending`: a list that is in order stays as it is.
* `Keyed.find?_put`: a value that is put is found under its key alone.
-/

namespace PluginDataset.Keyed

variable {α : Type}

def keys (pairs : List (String × α)) : List String :=
  pairs.map (·.1)

def Ascending (pairs : List (String × α)) : Prop :=
  (keys pairs).Pairwise (· < ·)

/-- Sets the value of `key` to what `change` makes of the present one. -/
def update (key : String) (change : Option α → α) : List (String × α) → List (String × α)
  | [] => [(key, change none)]
  | (k, v) :: rest =>
    if key < k then (key, change none) :: (k, v) :: rest
    else if key = k then (key, change (some v)) :: rest
    else (k, v) :: update key change rest

def put (key : String) (value : α) (pairs : List (String × α)) : List (String × α) :=
  update key (fun _ => value) pairs

/-- Pairs in ascending order of their keys; the last value of a repeated key stands. -/
def ofList (pairs : List (String × α)) : List (String × α) :=
  pairs.foldl (fun sorted (k, v) => put k v sorted) []

def find? (key : String) : List (String × α) → Option α
  | [] => none
  | (k, v) :: rest => if key = k then some v else find? key rest

@[simp] theorem keys_nil : keys ([] : List (String × α)) = [] := rfl

@[simp] theorem keys_cons (k : String) (v : α) (rest : List (String × α)) :
    keys ((k, v) :: rest) = k :: keys rest := rfl

/-- A change of the value of `key` adds it to the keys. -/
theorem mem_keys_update {key k : String} {change : Option α → α} {pairs : List (String × α)} :
    k ∈ keys (update key change pairs) ↔ k = key ∨ k ∈ keys pairs := by
  induction pairs with
  | nil => simp [update]
  | cons p rest ih =>
    obtain ⟨k', v⟩ := p
    rw [update]
    split
    · simp
    · split
      · next h => subst h; simp
      · simp [ih]; grind

theorem ascending_update {key : String} {change : Option α → α} {pairs : List (String × α)}
    (h : Ascending pairs) : Ascending (update key change pairs) := by
  induction pairs with
  | nil => simp [update, Ascending]
  | cons p rest ih =>
    obtain ⟨k, v⟩ := p
    simp only [Ascending, keys_cons, List.pairwise_cons] at h
    rw [update]
    split
    · next hlt =>
      simp only [Ascending, keys_cons, List.pairwise_cons, List.mem_cons, forall_eq_or_imp]
      exact ⟨⟨hlt, fun k' hk' => String.lt_trans hlt (h.1 k' hk')⟩, h⟩
    · next hge =>
      split
      · next heq => subst heq; simpa [Ascending] using h
      · next hne =>
        simp only [Ascending, keys_cons, List.pairwise_cons]
        refine ⟨fun k' hk' => ?_, ih h.2⟩
        rcases mem_keys_update.1 hk' with rfl | hk'
        · exact Std.lt_of_le_of_ne (Std.not_lt.1 hge) (Ne.symm hne)
        · exact h.1 k' hk'

theorem ascending_ofList (pairs : List (String × α)) : Ascending (ofList pairs) := by
  suffices ∀ sorted : List (String × α), Ascending sorted →
      Ascending (pairs.foldl (fun sorted (k, v) => put k v sorted) sorted) from
    this [] .nil
  induction pairs with
  | nil => exact fun _ h => h
  | cons p rest ih => exact fun _ h => ih _ (ascending_update h)

/-- In a sorted list no key before the first one has a value. -/
theorem find?_eq_none_of_forall_lt {key : String} {pairs : List (String × α)}
    (h : ∀ k ∈ keys pairs, key < k) : find? key pairs = none := by
  induction pairs with
  | nil => rfl
  | cons p rest ih =>
    obtain ⟨k, v⟩ := p
    simp only [keys_cons, List.mem_cons, forall_eq_or_imp] at h
    rw [find?, if_neg (Std.ne_of_lt h.1), ih h.2]

theorem find?_update {key k : String} {change : Option α → α} {pairs : List (String × α)}
    (h : Ascending pairs) :
    find? k (update key change pairs) =
      if k = key then some (change (find? key pairs)) else find? k pairs := by
  induction pairs with
  | nil => simp [update, find?]
  | cons p rest ih =>
    obtain ⟨k', v⟩ := p
    simp only [Ascending, keys_cons, List.pairwise_cons] at h
    rw [update]
    split
    · next hlt =>
      have : find? key ((k', v) :: rest) = none :=
        find?_eq_none_of_forall_lt (by
          simp only [keys_cons, List.mem_cons, forall_eq_or_imp]
          exact ⟨hlt, fun x hx => String.lt_trans hlt (h.1 x hx)⟩)
      rw [this, find?]
    · split
      · next heq => subst heq; simp only [find?]; grind
      · next hne => simp only [find?, ih h.2]; grind

/-- A value that is put is found under its key alone. -/
theorem find?_put {key k : String} {value : α} {pairs : List (String × α)} (h : Ascending pairs) :
    find? k (put key value pairs) = if k = key then some value else find? k pairs :=
  find?_update h

theorem mem_of_find? {key : String} {value : α} {pairs : List (String × α)}
    (h : find? key pairs = some value) : (key, value) ∈ pairs := by
  induction pairs with
  | nil => simp [find?] at h
  | cons p rest ih =>
    obtain ⟨k, v⟩ := p
    rw [find?] at h
    split at h
    · next heq =>
      obtain rfl := Option.some.inj h
      simp [heq]
    · exact List.mem_cons_of_mem _ (ih h)

theorem put_eq_append {key : String} {value : α} {pairs : List (String × α)}
    (h : ∀ k ∈ keys pairs, k < key) : put key value pairs = pairs ++ [(key, value)] := by
  induction pairs with
  | nil => rfl
  | cons p rest ih =>
    obtain ⟨k, v⟩ := p
    simp only [keys_cons, List.mem_cons, forall_eq_or_imp] at h
    have hrest : update key (fun _ => value) rest = rest ++ [(key, value)] := ih h.2
    rw [put, update, if_neg (String.lt_asymm h.1), if_neg (Std.ne_of_lt h.1).symm, hrest]
    rfl

theorem ofList_of_ascending {pairs : List (String × α)} (h : Ascending pairs) :
    ofList pairs = pairs := by
  suffices ∀ sorted : List (String × α), Ascending (sorted ++ pairs) →
      pairs.foldl (fun sorted (k, v) => put k v sorted) sorted = sorted ++ pairs from
    this [] h
  clear h
  induction pairs with
  | nil => simp
  | cons p rest ih =>
    intro sorted h
    obtain ⟨k, v⟩ := p
    have hlast : put k v sorted = sorted ++ [(k, v)] := by
      refine put_eq_append fun k' hk' => ?_
      simp only [Ascending, keys, List.map_append, List.pairwise_append] at h
      exact h.2.2 k' hk' k (by simp)
    have happend : sorted ++ (k, v) :: rest = sorted ++ [(k, v)] ++ rest := by simp
    rw [List.foldl_cons]
    dsimp only
    rw [hlast, happend]
    exact ih _ (happend ▸ h)

end PluginDataset.Keyed
