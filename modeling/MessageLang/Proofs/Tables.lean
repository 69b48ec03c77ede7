import Mathlib.Data.List.Nodup
import MessageLang.Table
/-!
# Tables and the entries they take up

A table that takes up entries, one after the other, has the last one for each key, and no key twice.

* `Table.last?`: the value of the last entry for a key.
* `Table.get?_update`, `Table.get?_ofEntries`: the values of a table behind further entries.
* `Table.mem_keys_set`, `Table.mem_keys_update`, `Table.nodup_keys_update`: its keys.
* `Table.update_ofEntries`: entries can be collected in a table of their own before they are taken
  up.
* `Table.get?_without`: a table without the keys of another.
-/
namespace MessageLang.Table

variable {α : Type} {t s other : Table α} {k k' key : String} {v w : α}

/-! ## Keys -/

theorem keys_append (t s : Table α) : keys (t ++ s) = t.keys ++ s.keys := List.map_append

/-- A key that a table does not have. -/
theorem get?_eq_none (h : key ∉ t.keys) : t.get? key = none := by
  rw [get?, List.lookup_eq_none_iff]
  intro e he
  rw [bne_iff_ne]
  intro heq
  subst heq
  exact h (List.mem_map_of_mem he)

/-- A table has the keys of its entries. -/
theorem has_eq_true_iff : t.has key = true ↔ key ∈ t.keys := by
  induction t with
  | nil => simp [has, keys]
  | cons e rest ih =>
    obtain ⟨k, v⟩ := e
    by_cases hk : key = k
    · simp [has, get?, keys, hk]
    · have hrest : has ((k, v) :: rest) key = has rest key := by
        simp [has, get?, List.lookup_cons, beq_eq_false_iff_ne.mpr hk]
      rw [hrest, ih]
      simp [keys, hk]

theorem mem_keys_set : key ∈ (t.set k v).keys ↔ key ∈ t.keys ∨ key = k := by
  rw [← has_eq_true_iff, ← has_eq_true_iff, has, has, get?_set]
  by_cases h : key = k <;> simp [h]

theorem mem_keys_update : key ∈ (t.update other).keys ↔ key ∈ t.keys ∨ key ∈ other.keys := by
  induction other generalizing t with
  | nil => simp [update, keys]
  | cons e rest ih =>
    obtain ⟨k, v⟩ := e
    have hkeys : keys ((k, v) :: rest) = k :: keys rest := rfl
    show key ∈ ((t.set k v).update rest).keys ↔ _
    rw [ih, mem_keys_set, or_assoc, hkeys, List.mem_cons]

theorem mem_keys_ofEntries {entries : List (String × α)} :
    key ∈ (ofEntries entries).keys ↔ key ∈ keys entries := by
  rw [ofEntries, mem_keys_update]
  simp [keys]

/-- A new key goes to the end. -/
theorem keys_set_of_has_eq_false (h : t.has key = false) (v : α) :
    (t.set key v).keys = t.keys ++ [key] := by
  induction t with
  | nil => rfl
  | cons e rest ih =>
    obtain ⟨k, w⟩ := e
    have hk : (k == key) = false := by
      rw [beq_eq_false_iff_ne]
      intro heq
      simp [has, get?, heq] at h
    have hrest : has rest key = false := by
      rw [BEq.comm] at hk
      simpa [has, get?, List.lookup_cons, hk] using h
    rw [set, hk, if_neg Bool.false_ne_true]
    exact congrArg (k :: ·) (ih hrest)

/-- A key that is there stays in its place. -/
theorem keys_set_of_mem (h : key ∈ t.keys) (v : α) : (t.set key v).keys = t.keys := by
  induction t with
  | nil => cases h
  | cons e rest ih =>
    obtain ⟨k, w⟩ := e
    rw [set]
    split
    · rfl
    · rename_i hk
      rcases List.mem_cons.mp h with h | h
      · exact absurd (beq_iff_eq.mpr h.symm) hk
      · exact congrArg (k :: ·) (ih h)

theorem nodup_keys_set (h : t.keys.Nodup) : (t.set k v).keys.Nodup := by
  by_cases hk : k ∈ t.keys
  · rwa [keys_set_of_mem hk]
  · rw [keys_set_of_has_eq_false (by rwa [← Bool.not_eq_true, has_eq_true_iff])]
    exact List.nodup_append.mpr ⟨h, List.nodup_singleton k, fun a ha b hb => by
      rw [List.mem_singleton.mp hb]
      exact fun heq => hk (heq ▸ ha)⟩

theorem nodup_keys_update (h : t.keys.Nodup) (entries : List (String × α)) :
    (t.update entries).keys.Nodup := by
  induction entries generalizing t with
  | nil => exact h
  | cons e rest ih => exact ih (nodup_keys_set h)

theorem nodup_keys_ofEntries (entries : List (String × α)) : (ofEntries entries).keys.Nodup :=
  nodup_keys_update (t := []) List.nodup_nil entries

/-! ## Values -/

/-- The value of the last entry for a key. -/
def last? (entries : List (String × α)) (key : String) : Option α := entries.reverse.lookup key

theorem last?_append (entries more : List (String × α)) (key : String) :
    last? (entries ++ more) key = (last? more key).or (last? entries key) := by
  rw [last?, List.reverse_append, List.lookup_append]
  rfl

theorem last?_cons (e : String × α) (entries : List (String × α)) (key : String) :
    last? (e :: entries) key = (last? entries key).or (if key == e.1 then some e.2 else none) := by
  obtain ⟨k, v⟩ := e
  have hhead : last? [(k, v)] key = if key == k then some v else none := by
    rw [last?, List.reverse_singleton, List.lookup_cons]
    cases key == k <;> rfl
  rw [← List.singleton_append, last?_append, hhead]

/-- A table with further entries: the last entry of a key counts. -/
theorem get?_update (t : Table α) (entries : List (String × α)) (key : String) :
    (t.update entries).get? key = (last? entries key).or (t.get? key) := by
  induction entries generalizing t with
  | nil => rfl
  | cons e rest ih =>
    obtain ⟨k, v⟩ := e
    show ((t.set k v).update rest).get? key = _
    rw [ih, get?_set, last?_cons, Option.or_assoc]
    cases key == k <;> rfl

theorem get?_ofEntries (entries : List (String × α)) (key : String) :
    (ofEntries entries).get? key = last? entries key := by
  rw [ofEntries, get?_update, get?_nil, Option.or_none]

theorem last?_eq_none {entries : List (String × α)} (h : key ∉ keys entries) :
    last? entries key = none := by
  rw [← get?_ofEntries]
  exact get?_eq_none fun hk => h (mem_keys_ofEntries.mp hk)

theorem get?_update_map (t : Table α) (xs : List α) (key : α → String) (name : String) :
    (t.update (xs.map fun x => (key x, x))).get? name =
      (xs.reverse.find? fun x => key x == name).or (t.get? name) := by
  rw [get?_update, last?, ← List.map_reverse]
  congr 1
  induction xs.reverse with
  | nil => rfl
  | cons x xs ih =>
    rw [List.map_cons, List.lookup_cons, List.find?_cons, ih, BEq.comm]

theorem get?_without {β : Type} (t : Table α) (other : Table β) (key : String) :
    (t.without other).get? key = if other.has key then none else t.get? key := by
  induction t with
  | nil => split <;> rfl
  | cons e rest ih =>
    obtain ⟨k, v⟩ := e
    have hrest : (without rest other).get? key = if other.has key then none else get? rest key := ih
    cases hk : other.has k <;> by_cases heq : key = k
    · subst heq
      simp [without, hk, get?]
    · have hne : (key == k) = false := beq_eq_false_iff_ne.mpr heq
      simpa [without, hk, get?, List.lookup_cons, hne] using hrest
    · subst heq
      simpa [without, hk, get?, List.lookup_cons] using hrest
    · have hne : (key == k) = false := beq_eq_false_iff_ne.mpr heq
      simpa [without, hk, get?, List.lookup_cons, hne] using hrest

theorem nodup_keys_without {β : Type} (h : t.keys.Nodup) (other : Table β) :
    (t.without other).keys.Nodup :=
  h.sublist (List.filter_sublist.map Prod.fst)

/-! ## Entries of entries -/

theorem update_append (t : Table α) (entries more : List (String × α)) :
    t.update (entries ++ more) = (t.update entries).update more :=
  List.foldl_append

/-- Of two values for a key the later one counts. -/
theorem set_set (t : Table α) (k : String) (v w : α) : (t.set k v).set k w = t.set k w := by
  induction t with
  | nil => simp [set]
  | cons e rest ih =>
    obtain ⟨k', v'⟩ := e
    by_cases h : (k' == k) = true
    · simp [set, h]
    · simp [set, h, ih]

/-- Setting a key that is there may wait until another one is set. -/
theorem set_comm (h : k ∈ t.keys) (hne : k ≠ k') : (t.set k' w).set k v = (t.set k v).set k' w := by
  induction t with
  | nil => cases h
  | cons e rest ih =>
    obtain ⟨a, x⟩ := e
    by_cases hk : a = k
    · subst hk
      simp [set, hne]
    · have hrest : k ∈ keys rest := (List.mem_cons.mp h).resolve_left (Ne.symm hk)
      by_cases hk' : a = k'
      · subst hk'
        simp [set, hk]
      · simp [set, hk, hk', ih hrest]

theorem update_set_of_notMem (h : k ∈ t.keys) {entries : List (String × α)}
    (hn : k ∉ keys entries) : (t.update entries).set k v = (t.set k v).update entries := by
  induction entries generalizing t with
  | nil => rfl
  | cons e rest ih =>
    obtain ⟨a, x⟩ := e
    have ha : k ≠ a := fun heq => hn (heq ▸ List.mem_cons_self)
    have hrest : k ∉ keys rest := fun hm => hn (List.mem_cons_of_mem _ hm)
    show ((t.set a x).update rest).set k v = ((t.set k v).set a x).update rest
    rw [ih (mem_keys_set.mpr (.inl h)) hrest, set_comm h ha]

/-- An entry that a table of entries takes up goes to where that table goes. -/
theorem update_set (t : Table α) (h : s.keys.Nodup) :
    t.update (s.set k v) = (t.update s).set k v := by
  induction s generalizing t with
  | nil => rfl
  | cons e rest ih =>
    obtain ⟨a, x⟩ := e
    obtain ⟨ha, hrest⟩ := List.nodup_cons.mp h
    by_cases hk : a = k
    · subst hk
      have hset : set ((a, x) :: rest) a v = (a, v) :: rest := by simp [set]
      rw [hset]
      show (t.set a v).update rest = ((t.set a x).update rest).set a v
      rw [update_set_of_notMem (mem_keys_set.mpr (.inr rfl)) ha, set_set]
    · have hset : set ((a, x) :: rest) k v = (a, x) :: set rest k v := by simp [set, hk]
      rw [hset]
      exact ih (t.set a x) hrest

theorem update_update (t : Table α) (h : s.keys.Nodup) (entries : List (String × α)) :
    t.update (s.update entries) = (t.update s).update entries := by
  induction entries generalizing s with
  | nil => rfl
  | cons e rest ih =>
    obtain ⟨k, v⟩ := e
    show t.update ((s.set k v).update rest) = ((t.update s).set k v).update rest
    rw [ih (nodup_keys_set h), update_set t h]

/-- Entries can be collected in a table of their own before they are taken up. -/
theorem update_ofEntries (t : Table α) (entries : List (String × α)) :
    t.update (ofEntries entries) = t.update entries :=
  update_update (s := []) t List.nodup_nil entries

end MessageLang.Table
