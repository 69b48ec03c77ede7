/-!
# Tables in order of first entry

A table is a list of pairs with distinct keys. Setting a key that is there replaces its value in
place; a new key goes to the end.
-/
namespace MessageLang

abbrev Table (α : Type) := List (String × α)

namespace Table

variable {α : Type}

/-- The value of a key, if it has one. -/
def get? (t : Table α) (key : String) : Option α := t.lookup key

/-- The table with a value for a key. -/
def set : Table α → String → α → Table α
  | [], key, value => [(key, value)]
  | (k, v) :: rest, key, value =>
    if k == key then (k, value) :: rest else (k, v) :: set rest key value

/-- The table with all entries of another, which win. -/
def update (t other : Table α) : Table α := other.foldl (fun t (k, v) => t.set k v) t

/-- The table of a list of entries, the last one of each key winning. -/
def ofEntries (entries : List (String × α)) : Table α := update [] entries

def keys (t : Table α) : List String := t.map Prod.fst

def has (t : Table α) (key : String) : Bool := (t.get? key).isSome

/-- The entries whose keys another table does not have. -/
def without {β : Type} (t : Table α) (other : Table β) : Table α :=
  t.filter fun (k, _) => !other.has k

@[simp] theorem get?_nil (key : String) : get? ([] : Table α) key = none := rfl

@[simp] theorem get?_set (t : Table α) (k key : String) (v : α) :
    (t.set k v).get? key = if key == k then some v else t.get? key := by
  induction t with
  | nil => rw [set, get?, List.lookup_cons]; cases key == k <;> rfl
  | cons e rest ih =>
    obtain ⟨k', v'⟩ := e
    rw [set]
    by_cases h : k' = k
    · subst h
      rw [if_pos (beq_self_eq_true k'), get?, get?, List.lookup_cons, List.lookup_cons]
      cases key == k' <;> rfl
    · rw [if_neg (by simpa using h), get?, get?, List.lookup_cons, List.lookup_cons]
      by_cases hk : key = k'
      · subst hk
        rw [beq_self_eq_true, beq_eq_false_iff_ne.2 h]; rfl
      · rw [beq_eq_false_iff_ne.2 hk]; exact ih

end Table
end MessageLang
