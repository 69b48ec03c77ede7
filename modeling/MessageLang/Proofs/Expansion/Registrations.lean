import MessageLang.Expansion.Registry
import MessageLang.Proofs.Tables
/-!
# Histories of registrations

What a registry holds after any number of requests to register a group, some of them refused: the
groups that were granted, and for each name the extension that was listed last under it. Names clash
with nothing that was granted before; a group that lists a name twice is granted, and the last one
counts.

* `Registry.requestAll`, `Registry.granted`: a registry after a history, and the requests that it
  grants.
* `Registry.Holds`: what a registry holds of the requests that were granted.
* `Holds.register`, `Holds.requestAll`: one request that is granted, a whole history.
-/
namespace MessageLang

/-! ## Histories -/

/-- A request to register a group of extensions. -/
structure Registration where
  group : String
  points : List ExtensionPoint

/-- The names of the extensions that a request lists. -/
def Registration.names (x : Registration) : List String := x.points.map (·.name)

namespace Registry

/-- The registry after a request; a request that is refused leaves it as it is. -/
def request (r : Registry) (x : Registration) : Registry :=
  match r.register? x.group x.points with
  | .ok r' => r'
  | .error _ => r

/-- The registry after all requests of a history. -/
def requestAll (r : Registry) (history : List Registration) : Registry := history.foldl request r

/-- Whether a request is granted. -/
def grants (r : Registry) (x : Registration) : Bool := (r.register? x.group x.points).toBool

/-- The requests of a history that are granted. -/
def granted (r : Registry) : List Registration → List Registration
  | [] => []
  | x :: rest =>
    if r.grants x then x :: granted (r.request x) rest else granted (r.request x) rest

/-- The extensions that requests list, in order. -/
def listed (history : List Registration) : List ExtensionPoint := history.flatMap (·.points)

/-- What a registry holds once these requests were granted and no others. -/
structure Holds (r : Registry) (history : List Registration) : Prop where
  /-- The groups, in order. -/
  groups : r.groups.keys = history.map (·.group)
  /-- A name stands for the last extension that was listed under it. -/
  find? : ∀ name, r.find? name = (listed history).reverse.find? fun x => x.name == name
  /-- Two requests share neither their group nor an extension. -/
  apart : history.Pairwise fun x y => x.group ≠ y.group ∧ ∀ name ∈ x.names, name ∉ y.names

variable {r r' : Registry} {history : List Registration} {x : Registration}

/-! ## One request -/

theorem holds_empty : Holds empty [] where
  groups := rfl
  find? _ := rfl
  apart := .nil

/-- A name stands for an extension exactly if it was listed. -/
theorem Holds.has_iff (h : r.Holds history) (name : String) :
    r.extensions.has name = true ↔ ∃ y ∈ history, name ∈ y.names := by
  have hfind : r.extensions.has name =
      ((listed history).reverse.find? fun x => x.name == name).isSome := by
    rw [← h.find?]
    rfl
  rw [hfind, List.find?_isSome]
  simp only [listed, List.mem_reverse, List.mem_flatMap, Registration.names, List.mem_map,
    beq_iff_eq]
  constructor
  · rintro ⟨e, ⟨y, hy, he⟩, hn⟩
    exact ⟨y, hy, e, he, hn⟩
  · rintro ⟨y, hy, e, he, hn⟩
    exact ⟨e, ⟨y, hy, he⟩, hn⟩

/-- A request is granted unless its group or one of its extensions was granted before. -/
theorem Holds.grants_iff (h : r.Holds history) :
    r.grants x = true ↔ ∀ y ∈ history, y.group ≠ x.group ∧ ∀ name ∈ y.names, name ∉ x.names := by
  have hgroup : r.groups.has x.group = true ↔ ∃ y ∈ history, y.group = x.group := by
    rw [Table.has_eq_true_iff, h.groups, List.mem_map]
  unfold grants register?
  split
  · rename_i hhas
    obtain ⟨y, hy, heq⟩ := hgroup.mp hhas
    refine iff_of_false Bool.false_ne_true fun hall => (hall y hy).1 heq
  · rename_i hhas
    split
    · rename_i e hfound
      have he := List.mem_of_find?_eq_some hfound
      have hhas := List.find?_some hfound
      obtain ⟨y, hy, hname⟩ := (h.has_iff e.name).mp hhas
      refine iff_of_false Bool.false_ne_true fun hall => ?_
      exact (hall y hy).2 _ hname (List.mem_map_of_mem he)
    · rename_i hnone
      refine iff_of_true rfl fun y hy => ⟨fun heq => hhas (hgroup.mpr ⟨y, hy, heq⟩), ?_⟩
      intro name hname hname'
      obtain ⟨e, he, rfl⟩ := List.mem_map.mp hname'
      exact List.find?_eq_none.mp hnone e he ((h.has_iff e.name).mpr ⟨y, hy, hname⟩)

/-- One more request that is granted. -/
theorem Holds.request (h : r.Holds history) (hx : r.grants x = true) :
    (r.request x).Holds (history ++ [x]) := by
  have hapart := h.grants_iff.mp hx
  have hhas : r.groups.has x.group = false := by
    rw [← Bool.not_eq_true, Table.has_eq_true_iff, h.groups, List.mem_map]
    intro hmem
    obtain ⟨y, hy, heq⟩ := hmem
    exact (hapart y hy).1 heq
  have hnew : r.request x = ⟨r.groups.set x.group x.names,
      r.extensions.update (x.points.map fun e => (e.name, e))⟩ := by
    unfold grants register? at hx
    unfold Registry.request register?
    rw [hhas, if_neg Bool.false_ne_true] at hx ⊢
    split at hx
    · cases hx
    · rfl
  rw [hnew]
  refine ⟨?_, fun name => ?_, ?_⟩
  · rw [Table.keys_set_of_has_eq_false hhas, h.groups, List.map_append]
    rfl
  · have hfind : r.extensions.get? name =
        (listed history).reverse.find? fun e => e.name == name := h.find? name
    rw [Registry.find?, Table.get?_update_map, hfind, listed, listed, List.flatMap_append,
      List.reverse_append, List.find?_append, List.flatMap_singleton]
  · rw [List.pairwise_append]
    refine ⟨h.apart, List.pairwise_singleton _ _, fun y hy z hz => ?_⟩
    cases List.mem_singleton.mp hz
    exact hapart y hy

theorem request_of_grants_eq_false (hx : r.grants x = false) : r.request x = r := by
  unfold grants at hx
  unfold request
  cases hr : r.register? x.group x.points with
  | ok r' =>
    rw [hr] at hx
    cases hx
  | error e => rfl

/-! ## Histories -/

/-- A history adds what it grants. -/
theorem Holds.requestAll {before : List Registration} (h : r.Holds before)
    (history : List Registration) :
    (r.requestAll history).Holds (before ++ r.granted history) := by
  induction history generalizing r before with
  | nil => simpa [Registry.requestAll, granted] using h
  | cons x rest ih =>
    have hstep : r.requestAll (x :: rest) = (r.request x).requestAll rest := rfl
    rw [hstep, granted]
    split
    · rename_i hx
      have hrest := ih (h.request hx)
      rwa [List.append_assoc, List.singleton_append] at hrest
    · rename_i hx
      rw [Bool.not_eq_true] at hx
      rw [request_of_grants_eq_false hx]
      exact ih h

/-- What is refused leaves no trace: what is granted leads to the same registry by itself. -/
theorem requestAll_granted (r : Registry) (history : List Registration) :
    r.requestAll (r.granted history) = r.requestAll history := by
  induction history generalizing r with
  | nil => rfl
  | cons x rest ih =>
    have hstep : r.requestAll (x :: rest) = (r.request x).requestAll rest := rfl
    rw [hstep, granted]
    split
    · exact ih _
    · rename_i hx
      rw [Bool.not_eq_true] at hx
      rw [request_of_grants_eq_false hx]
      exact ih r

/-- Where no two entries share a key, each is found under its own. -/
theorem find?_eq_some_of_nodup {α : Type} {key : α → String} {xs : List α}
    (h : (xs.map key).Nodup) {x : α} (hx : x ∈ xs) :
    xs.find? (fun y => key y == key x) = some x := by
  obtain ⟨y, hy⟩ : ∃ y, xs.find? (fun y => key y == key x) = some y := by
    rw [← Option.isSome_iff_exists, List.find?_isSome]
    exact ⟨x, hx, beq_self_eq_true _⟩
  have hkey := List.find?_some hy
  rw [beq_iff_eq] at hkey
  rw [hy, List.inj_on_of_nodup_map h (List.mem_of_find?_eq_some hy) hx hkey]

/-- The names that requests list are all different if those of each request are. -/
theorem Holds.nodup (h : r.Holds history) (hnames : ∀ x ∈ history, x.names.Nodup) :
    ((listed history).map (·.name)).Nodup := by
  rw [listed, List.map_flatMap, List.Nodup, List.pairwise_flatMap]
  refine ⟨hnames, h.apart.imp fun hxy a ha b hb heq => ?_⟩
  subst heq
  exact hxy.2 a ha hb

theorem Holds.find?_eq_some (h : r.Holds history)
    (hnames : ((listed history).map (·.name)).Nodup) {e : ExtensionPoint}
    (he : e ∈ listed history) : r.find? e.name = some e := by
  rw [h.find?]
  refine find?_eq_some_of_nodup ?_ (List.mem_reverse.mpr he)
  rwa [List.map_reverse, List.nodup_reverse]

theorem Holds.find?_eq_none_iff (h : r.Holds history) (name : String) :
    r.find? name = none ↔ name ∉ (listed history).map (·.name) := by
  rw [h.find?, List.find?_eq_none]
  simp only [List.mem_reverse, beq_iff_eq, List.mem_map, not_exists, not_and]

/-- After any history, the requests that were granted share no group and no extension, what was
refused has left no trace, and a name stands for the extension that was listed last under it, or for
nothing. If no request that was granted lists a name twice, all names are different and each stands
for the one extension that is listed under it. A request is refused exactly if its group or one of
its extensions was granted before. -/
theorem extensions_unique (history : List Registration) :
    let r := empty.requestAll history
    let granted := empty.granted history
    r = empty.requestAll granted ∧
    (granted.Pairwise fun x y => x.group ≠ y.group ∧ ∀ name ∈ x.names, name ∉ y.names) ∧
    (∀ name, r.find? name = (listed granted).reverse.find? fun e => e.name == name) ∧
    (∀ name, r.find? name = none ↔ name ∉ (listed granted).map (·.name)) ∧
    (∀ x, r.grants x = true ↔
      ∀ y ∈ granted, y.group ≠ x.group ∧ ∀ name ∈ y.names, name ∉ x.names) ∧
    ((∀ x ∈ granted, x.names.Nodup) →
      ((listed granted).map (·.name)).Nodup ∧ ∀ e ∈ listed granted, r.find? e.name = some e) := by
  have hholds : (empty.requestAll history).Holds (empty.granted history) :=
    holds_empty.requestAll history
  refine ⟨(requestAll_granted empty history).symm, hholds.apart, hholds.find?,
    hholds.find?_eq_none_iff, fun x => hholds.grants_iff, fun hnames => ?_⟩
  exact ⟨hholds.nodup hnames, fun e he => hholds.find?_eq_some (hholds.nodup hnames) he⟩

/-- A request that clashes with an earlier one, and is refused, between two that are granted. -/
theorem extensions_unique_clash :
    let seven : ExtensionPoint := ⟨"seven", .empty, .integer 7⟩
    let echo : ExtensionPoint := ⟨"echo", .optionalExpression, .echo⟩
    let again : ExtensionPoint := ⟨"seven", .optionalExpression, .echo⟩
    let place : ExtensionPoint := ⟨"place", .empty, .withPlace⟩
    let history := [⟨"a", [seven, echo]⟩, ⟨"b", [place, again]⟩, ⟨"b", [place]⟩]
    empty.granted history = [⟨"a", [seven, echo]⟩, ⟨"b", [place]⟩] ∧
      ((listed (empty.granted history)).map (·.name)).Nodup ∧
      (empty.requestAll history).find? "seven" = some seven := by
  intro seven echo again place history
  have hgranted : empty.granted history = [⟨"a", [seven, echo]⟩, ⟨"b", [place]⟩] := rfl
  have hnames : ∀ x ∈ empty.granted history, x.names.Nodup := by
    rw [hgranted]
    simp only [List.forall_mem_cons, List.not_mem_nil, false_implies, implies_true, and_true]
    exact ⟨by decide, by decide⟩
  obtain ⟨-, -, -, -, -, hunique⟩ := extensions_unique history
  obtain ⟨hnodup, hfind⟩ := hunique hnames
  have hseven : seven ∈ listed (empty.granted history) := by
    rw [hgranted]
    exact List.mem_cons_self
  exact ⟨hgranted, hnodup, hfind seven hseven⟩

/-- Not all names are different: a single request that lists a name twice is granted, and the first
of the two extensions cannot be found. -/
theorem extensions_not_unique :
    let echo : ExtensionPoint := ⟨"x", .optionalExpression, .echo⟩
    let seven : ExtensionPoint := ⟨"x", .empty, .integer 7⟩
    let history := [⟨"a", [echo, seven]⟩]
    empty.granted history = history ∧ ¬ ((listed history).map (·.name)).Nodup ∧
      echo ∈ listed history ∧ (empty.requestAll history).find? echo.name ≠ some echo := by
  intro echo seven history
  refine ⟨rfl, by decide, List.mem_cons_self, fun hfind => ?_⟩
  have hseven : (empty.requestAll history).find? echo.name = some seven := rfl
  rw [hseven] at hfind
  have hshape : seven.shape = echo.shape := congrArg ExtensionPoint.shape (Option.some.inj hfind)
  cases hshape

end Registry
end MessageLang
