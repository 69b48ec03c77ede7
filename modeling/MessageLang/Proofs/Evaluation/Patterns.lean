import MessageLang.Evaluation.Matching
import MessageLang.Proofs.Syntax.Code
import MessageLang.Proofs.Tables
/-!
# Matches bind the variables of their patterns

* `Pattern.bindsOnly_match`: a match adds no names to the bindings but those of its pattern.
-/
namespace MessageLang

/-- A step of a match that adds no names but those of a pattern. -/
def BindsOnly (names : List String) (b : Bindings) (r : Except Failure (Bool × Bindings)) : Prop :=
  ∀ matched b', r = .ok (matched, b') → ∀ key ∈ b'.keys, key ∈ b.keys ∨ key ∈ names

section

variable {names names' : List String} {b : Bindings} {r : Except Failure (Bool × Bindings)}

theorem bindsOnly_ok (matched : Bool) : BindsOnly names b (.ok (matched, b)) := by
  intro _ _ hs key hk
  cases hs
  exact .inl hk

theorem bindsOnly_error (failure : Failure) : BindsOnly names b (.error failure) := nofun

theorem bindsOnly_set (matched : Bool) (name : String) (v : Value) :
    BindsOnly [name] b (.ok (matched, b.set name v)) := by
  intro _ _ hs key hk
  cases hs
  exact (Table.mem_keys_set.mp hk).imp_right List.mem_singleton.mpr

theorem BindsOnly.mono (h : BindsOnly names b r) (hs : ∀ x ∈ names, x ∈ names') :
    BindsOnly names' b r :=
  fun matched b' he key hk => (h matched b' he key hk).imp_right (hs key)

/-- One match and then, if it succeeds, another step. -/
theorem BindsOnly.bind {f : Bool × Bindings → Except Failure (Bool × Bindings)}
    (h : BindsOnly names b r) (hf : ∀ matched b', BindsOnly names' b' (f (matched, b'))) :
    BindsOnly (names ++ names') b (r >>= f) := by
  intro matched b'' he key hk
  cases hr : r with
  | error failure =>
    rw [hr] at he
    cases he
  | ok x =>
    obtain ⟨m, b'⟩ := x
    rw [hr] at he
    rcases hf m b' matched b'' he key hk with hk' | hk'
    · exact (h m b' hr key hk').imp_right (List.mem_append_left _)
    · exact .inr (List.mem_append_right _ hk')

theorem bindsOnly_matchVariant {name : String} {l : Option Location} {v : Value}
    {content : Value → Except Failure (Bool × Bindings)}
    (h : ∀ v, BindsOnly names b (content v)) :
    BindsOnly names b (Pattern.match.matchVariant name l v b content) := by
  unfold Pattern.match.matchVariant
  split
  · split
    · exact bindsOnly_ok _
    · exact bindsOnly_ok _
  · split
    · split
      · exact bindsOnly_ok _
      · exact h _
    · exact bindsOnly_error _

end

mutual
/-- A match adds no names to the bindings but the variables of its pattern. -/
theorem Pattern.bindsOnly_match :
    (p : Pattern) → ∀ v b, BindsOnly p.names b (p.match v b)
  | .wildcard _, v, b => bindsOnly_ok _
  | .var name _, v, b => bindsOnly_set true name v
  | .variant name none l, v, b => bindsOnly_matchVariant fun _ => bindsOnly_ok _
  | .variant name (some p) l, v, b => bindsOnly_matchVariant fun w => p.bindsOnly_match w b
  | .tuple ps _, v, b => by
    unfold Pattern.match
    split
    · split
      · exact bindsOnly_matchAll ps _ b
      · exact bindsOnly_ok _
    · exact bindsOnly_ok _
  | .list ps _, v, b => by
    unfold Pattern.match
    split
    · split
      · exact bindsOnly_matchAll ps _ b
      · exact bindsOnly_ok _
    · exact bindsOnly_ok _
  | .cons head tail _, v, b => by
    unfold Pattern.match
    split
    · refine (head.bindsOnly_match _ b).bind fun matched b' => ?_
      cases matched with
      | true => exact tail.bindsOnly_match _ b'
      | false => exact bindsOnly_ok _
    · exact bindsOnly_ok _
  | .alternatives ps _, v, b => bindsOnly_matchAny ps v b
  | .aliased p name l, v, b => by
    have h : BindsOnly (p.names ++ [name]) b ((Pattern.aliased p name l).match v b) := by
      refine (p.bindsOnly_match v b).bind fun matched b' => ?_
      cases matched with
      | true => exact bindsOnly_set true name v
      | false => exact bindsOnly_ok _
    refine h.mono fun x hx => ?_
    rcases List.mem_append.mp hx with hx | hx
    · exact List.mem_cons_of_mem _ hx
    · exact List.mem_singleton.mp hx ▸ List.mem_cons_self
  | .other _, _, _ => bindsOnly_error _

theorem bindsOnly_matchAll :
    (ps : List Pattern) → ∀ vs b, BindsOnly (namesOfPatterns ps) b (matchAll ps vs b)
  | [], vs, b => by
    unfold matchAll
    exact bindsOnly_ok _
  | p :: ps, [], b => bindsOnly_ok _
  | p :: ps, v :: vs, b => by
    refine (p.bindsOnly_match v b).bind fun matched b' => ?_
    cases matched with
    | true => exact bindsOnly_matchAll ps vs b'
    | false => exact bindsOnly_ok _

theorem bindsOnly_matchAny :
    (ps : List Pattern) → ∀ v b, BindsOnly (namesOfPatterns ps) b (matchAny ps v b)
  | [], v, b => bindsOnly_ok _
  | p :: ps, v, b => by
    intro m b'' he key hk
    rw [matchAny] at he
    cases hp : p.match v [] with
    | error failure =>
      rw [hp] at he
      cases he
    | ok x =>
      obtain ⟨matched, attempt⟩ := x
      rw [hp] at he
      cases matched with
      | true =>
        cases he
        rcases Table.mem_keys_update.mp hk with hk | hk
        · exact .inl hk
        · rcases p.bindsOnly_match v [] true attempt hp key hk with hk | hk
          · cases hk
          · exact .inr (List.mem_append_left _ hk)
      | false =>
        exact (bindsOnly_matchAny ps v b m b'' he key hk).imp_right (List.mem_append_right _)
end

/-- The bindings of a match are named for the variables of its pattern. -/
theorem Pattern.mem_names_of_match {p : Pattern} {v : Value} {matched : Bool} {b : Bindings}
    (h : p.match v [] = .ok (matched, b)) {key : String} (hk : key ∈ b.keys) : key ∈ p.names := by
  rcases p.bindsOnly_match v [] matched b h key hk with hk | hk
  · cases hk
  · exact hk

end MessageLang
