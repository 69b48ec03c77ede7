import MessageLang.Evaluation.Matching
import MessageLang.Proofs.Tables
/-!
# The shapes of values

A pattern describes the shape of the values that it matches, and names parts of them. Neither says
how a match proceeds: which bindings an attempt makes before it fails is left open.

* `Pattern.Fits p v`: the value `v` has the shape of `p`.
* `Pattern.Binds p v entries`: then these are the names of `p` and the parts they stand for, in
  order; of alternatives only the first that fits names anything.
* `IsFirst`: the first item of a list with a property.
* `Pattern.Binds.fits`, `Pattern.Binds.unique`: a pattern names parts of the values of its shape
  only, and in one way only.
* `Pattern.match_exact`: a match succeeds for the values of the shape, with these entries, and fails
  for all others.
-/
namespace MessageLang

/-! ## The first of a list -/

/-- An item with a property before which none has it. -/
inductive IsFirst {α : Type} (P : α → Prop) : List α → α → Prop where
  | head {x : α} {xs : List α} : P x → IsFirst P (x :: xs) x
  | tail {x y : α} {xs : List α} : ¬ P y → IsFirst P xs x → IsFirst P (y :: xs) x

section

variable {α : Type} {P : α → Prop} {x y : α} {xs : List α}

theorem IsFirst.holds (h : IsFirst P xs x) : P x := by
  induction h with
  | head h => exact h
  | tail _ _ ih => exact ih

theorem IsFirst.mem (h : IsFirst P xs x) : x ∈ xs := by
  induction h with
  | head => exact List.mem_cons_self
  | tail _ _ ih => exact List.mem_cons_of_mem _ ih

theorem IsFirst.unique (h : IsFirst P xs x) (h' : IsFirst P xs y) : x = y := by
  induction h with
  | head hx =>
    cases h' with
    | head => rfl
    | tail hn => exact absurd hx hn
  | tail hn _ ih =>
    cases h' with
    | head hy => exact absurd hy hn
    | tail _ h' => exact ih h'

end

/-! ## Shapes -/

mutual
/-- Whether a pattern consists of patterns only, with `None` and `Some` for constructors. -/
def Pattern.isKnown : Pattern → Bool
  | .wildcard _ | .var _ _ => true
  | .variant name none _ => name == "None" || name == "Some"
  | .variant name (some p) _ => (name == "None" || name == "Some") && p.isKnown
  | .tuple ps _ | .list ps _ | .alternatives ps _ => patternsAreKnown ps
  | .cons head tail _ => head.isKnown && tail.isKnown
  | .aliased p _ _ => p.isKnown
  | .other _ => false

def patternsAreKnown : List Pattern → Bool
  | [] => true
  | p :: rest => p.isKnown && patternsAreKnown rest
end

namespace Pattern

mutual
/-- A value has the shape of a pattern. The empty option has that of `None`, everything else that of
`Some`. -/
inductive Fits : Pattern → Value → Prop where
  | wildcard {v : Value} {l : Option Location} : Fits (.wildcard l) v
  | var {name : String} {v : Value} {l : Option Location} : Fits (.var name l) v
  | none {argument : Option Pattern} {l : Option Location} : Fits (.variant "None" argument l) .none
  | some {v : Value} {l : Option Location} : v ≠ .none → Fits (.variant "Some" none l) v
  | content {p : Pattern} {v : Value} {l : Option Location} :
    v ≠ .none → Fits p v → Fits (.variant "Some" (some p) l) v
  | tuple {ps : List Pattern} {vs : List Value} {l : Option Location} :
    FitAll ps vs → Fits (.tuple ps l) (.tuple vs)
  | list {ps : List Pattern} {vs : List Value} {l : Option Location} :
    FitAll ps vs → Fits (.list ps l) (.list vs)
  | cons {head tail : Pattern} {v : Value} {vs : List Value} {l : Option Location} :
    Fits head v → Fits tail (.list vs) → Fits (.cons head tail l) (.list (v :: vs))
  | alternatives {ps : List Pattern} {p : Pattern} {v : Value} {l : Option Location} :
    p ∈ ps → Fits p v → Fits (.alternatives ps l) v
  | aliased {p : Pattern} {name : String} {v : Value} {l : Option Location} :
    Fits p v → Fits (.aliased p name l) v

/-- As many values as patterns, each of its pattern's shape. -/
inductive FitAll : List Pattern → List Value → Prop where
  | nil : FitAll [] []
  | cons {p : Pattern} {ps : List Pattern} {v : Value} {vs : List Value} :
    Fits p v → FitAll ps vs → FitAll (p :: ps) (v :: vs)
end

mutual
/-- The names in a pattern with the parts of the value that they stand for, in order. -/
inductive Binds : Pattern → Value → List (String × Value) → Prop where
  | wildcard {v : Value} {l : Option Location} : Binds (.wildcard l) v []
  | var {name : String} {v : Value} {l : Option Location} : Binds (.var name l) v [(name, v)]
  | none {argument : Option Pattern} {l : Option Location} :
    Binds (.variant "None" argument l) .none []
  | some {v : Value} {l : Option Location} : v ≠ .none → Binds (.variant "Some" none l) v []
  | content {p : Pattern} {v : Value} {l : Option Location} {entries : List (String × Value)} :
    v ≠ .none → Binds p v entries → Binds (.variant "Some" (some p) l) v entries
  | tuple {ps : List Pattern} {vs : List Value} {l : Option Location}
    {entries : List (String × Value)} :
    BindAll ps vs entries → Binds (.tuple ps l) (.tuple vs) entries
  | list {ps : List Pattern} {vs : List Value} {l : Option Location}
    {entries : List (String × Value)} :
    BindAll ps vs entries → Binds (.list ps l) (.list vs) entries
  | cons {head tail : Pattern} {v : Value} {vs : List Value} {l : Option Location}
    {entries more : List (String × Value)} :
    Binds head v entries → Binds tail (.list vs) more →
    Binds (.cons head tail l) (.list (v :: vs)) (entries ++ more)
  | alternatives {ps : List Pattern} {p : Pattern} {v : Value} {l : Option Location}
    {entries : List (String × Value)} :
    IsFirst (·.Fits v) ps p → Binds p v entries → Binds (.alternatives ps l) v entries
  | aliased {p : Pattern} {name : String} {v : Value} {l : Option Location}
    {entries : List (String × Value)} :
    Binds p v entries → Binds (.aliased p name l) v (entries ++ [(name, v)])

inductive BindAll : List Pattern → List Value → List (String × Value) → Prop where
  | nil : BindAll [] [] []
  | cons {p : Pattern} {ps : List Pattern} {v : Value} {vs : List Value}
    {entries more : List (String × Value)} :
    Binds p v entries → BindAll ps vs more → BindAll (p :: ps) (v :: vs) (entries ++ more)
end

mutual
theorem Binds.fits {p : Pattern} {v : Value} {entries : List (String × Value)} :
    p.Binds v entries → p.Fits v
  | .wildcard => .wildcard
  | .var => .var
  | .none => .none
  | .some hv => .some hv
  | .content hv h => .content hv h.fits
  | .tuple h => .tuple h.fitAll
  | .list h => .list h.fitAll
  | .cons h ht => .cons h.fits ht.fits
  | .alternatives hf _ => .alternatives hf.mem hf.holds
  | .aliased h => .aliased h.fits

theorem BindAll.fitAll {ps : List Pattern} {vs : List Value} {entries : List (String × Value)} :
    BindAll ps vs entries → FitAll ps vs
  | .nil => .nil
  | .cons h hs => .cons h.fits hs.fitAll
end

theorem FitAll.length_eq {ps : List Pattern} {vs : List Value} :
    FitAll ps vs → vs.length = ps.length
  | .nil => rfl
  | .cons _ h => congrArg (· + 1) h.length_eq

section

variable {argument : Option Pattern} {p : Pattern} {v : Value} {l : Option Location}

theorem Fits.eq_none (h : Fits (.variant "None" argument l) v) : v = .none := by
  generalize hn : "None" = name at h
  cases h with
  | none => rfl
  | some | content => exact absurd hn (by decide)

theorem Fits.ne_none (h : Fits (.variant "Some" argument l) v) : v ≠ .none := by
  generalize hn : "Some" = name at h
  cases h with
  | none => exact absurd hn (by decide)
  | some hv => exact hv
  | content hv => exact hv

theorem Fits.of_some (h : Fits (.variant "Some" (.some p) l) v) : Fits p v := by
  generalize hn : "Some" = name at h
  cases h with
  | none => exact absurd hn (by decide)
  | content _ hp => exact hp

end

section

variable {argument : Option Pattern} {p : Pattern} {v : Value} {l : Option Location}
  {entries : List (String × Value)}

theorem Binds.eq_nil_of_none (h : Binds (.variant "None" argument l) v entries) : entries = [] := by
  generalize hn : "None" = name at h
  cases h with
  | none => rfl
  | some | content => exact absurd hn (by decide)

/-- A constructor without an argument names nothing. -/
theorem Binds.eq_nil {name : String} (h : Binds (.variant name .none l) v entries) :
    entries = [] := by
  cases h <;> rfl

theorem Binds.of_some (h : Binds (.variant "Some" (.some p) l) v entries) :
    Binds p v entries := by
  generalize hn : "Some" = name at h
  cases h with
  | none => exact absurd hn (by decide)
  | content _ hp => exact hp

end

mutual
/-- A pattern names the same parts of a value, however this is found. -/
theorem Binds.unique {p : Pattern} {v : Value} {es es' : List (String × Value)} :
    p.Binds v es → p.Binds v es' → es = es'
  | .wildcard, h' => by
    cases h'
    rfl
  | .var, h' => by
    cases h'
    rfl
  | .none, h' => h'.eq_nil_of_none.symm
  | .some _, h' => h'.eq_nil.symm
  | .content _ h, h' => h.unique h'.of_some
  | .tuple h, h' => by
    cases h' with
    | tuple h' => exact h.unique h'
  | .list h, h' => by
    cases h' with
    | list h' => exact h.unique h'
  | .cons h ht, h' => by
    cases h' with
    | cons h' ht' => rw [h.unique h', ht.unique ht']
  | .alternatives hf h, h' => by
    cases h' with
    | alternatives hf' h' =>
      cases hf.unique hf'
      exact h.unique h'
  | .aliased h, h' => by
    cases h' with
    | aliased h' => rw [h.unique h']

theorem BindAll.unique {ps : List Pattern} {vs : List Value} {es es' : List (String × Value)} :
    BindAll ps vs es → BindAll ps vs es' → es = es'
  | .nil, h' => by
    cases h'
    rfl
  | .cons h hs, h' => by
    cases h' with
    | cons h' hs' => rw [h.unique h', hs.unique hs']
end

end Pattern

/-! ## Matching -/

/-- The result of matching, started from the bindings `b`: success with further entries where the
value fits, failure with whatever bindings where it does not. -/
def Exact (fits : Prop) (binds : List (String × Value) → Prop) (b : Bindings)
    (r : Except Failure (Bool × Bindings)) : Prop :=
  (∃ entries, binds entries ∧ r = .ok (true, b.update entries)) ∨
    (¬ fits ∧ ∃ b', r = .ok (false, b'))

section

variable {fits fits' : Prop} {binds binds' : List (String × Value) → Prop} {b : Bindings}
  {r : Except Failure (Bool × Bindings)}

theorem exact_matched (entries : List (String × Value)) (h : binds entries) :
    Exact fits binds b (.ok (true, b.update entries)) :=
  .inl ⟨entries, h, rfl⟩

theorem exact_failed (h : ¬ fits) (b' : Bindings) : Exact fits binds b (.ok (false, b')) :=
  .inr ⟨h, b', rfl⟩

theorem Exact.imp (h : Exact fits binds b r) (hf : fits' → fits)
    (hb : ∀ entries, binds entries → binds' entries) : Exact fits' binds' b r := by
  rcases h with ⟨entries, he, hr⟩ | ⟨hn, hr⟩
  · exact .inl ⟨entries, hb entries he, hr⟩
  · exact .inr ⟨fun h => hn (hf h), hr⟩

/-- One match, and if it succeeds another one from the bindings that it made. -/
theorem Exact.andThen {next : Bindings → Except Failure (Bool × Bindings)}
    (h : Exact fits binds b r) (hn : ∀ b', Exact fits' binds' b' (next b')) :
    Exact (fits ∧ fits') (fun es => ∃ es₁ es₂, es = es₁ ++ es₂ ∧ binds es₁ ∧ binds' es₂) b
      (do let (matched, b') ← r; if matched then next b' else return (false, b')) := by
  rcases h with ⟨es₁, h₁, rfl⟩ | ⟨hf, b', rfl⟩
  · rcases hn (b.update es₁) with ⟨es₂, h₂, hr⟩ | ⟨hf, b', hr⟩
    · refine .inl ⟨es₁ ++ es₂, ⟨es₁, es₂, rfl, h₁, h₂⟩, ?_⟩
      rw [Table.update_append, ← hr]
      rfl
    · exact .inr ⟨fun h => hf h.2, b', hr⟩
  · exact .inr ⟨fun h => hf h.1, b', rfl⟩

end

section

variable {name : String} {l : Option Location} {v : Value} {b : Bindings}

/-- Where `Some` accepts what `content` does, an option is matched exactly. -/
theorem exact_matchVariant {argument : Option Pattern}
    {content : Value → Except Failure (Bool × Bindings)}
    (hn : (name == "None" || name == "Some") = true)
    (hc : v ≠ .none → Exact ((Pattern.variant "Some" argument l).Fits v)
      ((Pattern.variant "Some" argument l).Binds v) b (content v)) :
    Exact ((Pattern.variant name argument l).Fits v) ((Pattern.variant name argument l).Binds v) b
      (Pattern.match.matchVariant name l v b content) := by
  simp only [Bool.or_eq_true, beq_iff_eq] at hn
  rcases hn with rfl | rfl
  · by_cases hv : v = .none
    · subst hv
      exact exact_matched [] .none
    · have hm : Pattern.match.matchVariant "None" l v b content = .ok (false, b) := by
        cases v <;> first | rfl | exact absurd rfl hv
      rw [hm]
      exact exact_failed (fun h => hv h.eq_none) b
  · by_cases hv : v = .none
    · subst hv
      exact exact_failed (fun h => h.ne_none rfl) b
    · have hm : Pattern.match.matchVariant "Some" l v b content = content v := by
        cases v <;> first | rfl | exact absurd rfl hv
      rw [hm]
      exact hc hv

end

mutual
/-- A match succeeds for the values of the pattern's shape, with the entries that it names, and
fails for all others. -/
theorem Pattern.match_exact :
    (p : Pattern) → p.isKnown = true → ∀ v b, Exact (p.Fits v) (p.Binds v) b (p.match v b)
  | .wildcard _, _, v, b => exact_matched [] .wildcard
  | .var name _, _, v, b => exact_matched [(name, v)] .var
  | .variant name none l, h, v, b =>
    exact_matchVariant h fun hv => exact_matched [] (.some hv)
  | .variant name (some p) l, h, v, b => by
    obtain ⟨hn, hp⟩ := Bool.and_eq_true_iff.mp h
    exact exact_matchVariant hn fun hv =>
      (p.match_exact hp v b).imp Pattern.Fits.of_some fun _ he => .content hv he
  | .tuple ps l, h, v, b => by
    unfold Pattern.match
    split
    · rename_i vs
      refine (matchAll_exact ps h vs b).imp (fun hf => ?_) fun _ he => .tuple he
      cases hf with
      | tuple hf => exact hf
    · rename_i hv
      refine exact_failed (fun hf => ?_) b
      cases hf with
      | tuple hf => exact hv _ rfl
  | .list ps l, h, v, b => by
    unfold Pattern.match
    split
    · rename_i vs
      refine (matchAll_exact ps h vs b).imp (fun hf => ?_) fun _ he => .list he
      cases hf with
      | list hf => exact hf
    · rename_i hv
      refine exact_failed (fun hf => ?_) b
      cases hf with
      | list hf => exact hv _ rfl
  | .cons head tail l, h, v, b => by
    obtain ⟨hh, ht⟩ := Bool.and_eq_true_iff.mp h
    unfold Pattern.match
    split
    · rename_i v vs
      refine ((head.match_exact hh v b).andThen fun b' => tail.match_exact ht (.list vs) b').imp
        (fun hf => ?_) fun es he => ?_
      · cases hf with
        | cons hf hf' => exact ⟨hf, hf'⟩
      · obtain ⟨es₁, es₂, rfl, h₁, h₂⟩ := he
        exact .cons h₁ h₂
    · rename_i hv
      refine exact_failed (fun hf => ?_) b
      cases hf with
      | cons hf hf' => exact hv _ _ rfl
  | .alternatives ps l, h, v, b => by
    refine (matchAny_exact ps h v b).imp (fun hf => ?_) fun _ he => ?_
    · cases hf with
      | alternatives hm hf => exact ⟨_, hm, hf⟩
    · obtain ⟨p, hp, he⟩ := he
      exact .alternatives hp he
  | .aliased p name l, h, v, b => by
    have hset : ∀ b', Exact True (· = [(name, v)]) b' (.ok (true, b'.set name v)) :=
      fun b' => exact_matched [(name, v)] rfl
    have hmatch : (Pattern.aliased p name l).match v b = (do
        let (matched, b') ← p.match v b
        if matched then .ok (true, b'.set name v) else return (false, b')) := by
      rw [Pattern.match]
      refine bind_congr fun (matched, b') => ?_
      cases matched <;> rfl
    rw [hmatch]
    refine ((p.match_exact h v b).andThen hset).imp (fun hf => ?_) fun es he => ?_
    · cases hf with
      | aliased hf => exact ⟨hf, trivial⟩
    · obtain ⟨es₁, es₂, rfl, h₁, rfl⟩ := he
      exact .aliased h₁
  | .other _, h, _, _ => nomatch h

/-- Values against as many patterns. -/
theorem matchAll_exact : (ps : List Pattern) → patternsAreKnown ps = true → ∀ vs b,
    Exact (Pattern.FitAll ps vs) (Pattern.BindAll ps vs) b
      (if vs.length == ps.length then matchAll ps vs b else .ok (false, b))
  | [], _, [], b => exact_matched [] .nil
  | [], _, v :: vs, b => exact_failed nofun b
  | p :: ps, _, [], b => exact_failed nofun b
  | p :: ps, h, v :: vs, b => by
    obtain ⟨hp, hps⟩ := Bool.and_eq_true_iff.mp h
    split
    · rename_i hlen
      have hrest : ∀ b', Exact (Pattern.FitAll ps vs) (Pattern.BindAll ps vs) b'
          (matchAll ps vs b') := by
        intro b'
        have hr := matchAll_exact ps hps vs b'
        rwa [if_pos (by simpa using hlen)] at hr
      rw [matchAll]
      refine ((p.match_exact hp v b).andThen hrest).imp (fun hf => ?_) fun es he => ?_
      · cases hf with
        | cons hf hf' => exact ⟨hf, hf'⟩
      · obtain ⟨es₁, es₂, rfl, h₁, h₂⟩ := he
        exact .cons h₁ h₂
    · rename_i hlen
      refine exact_failed (fun hf => hlen ?_) b
      rw [beq_iff_eq]
      exact hf.length_eq

/-- The alternatives that do not fit leave nothing behind. -/
theorem matchAny_exact : (ps : List Pattern) → patternsAreKnown ps = true → ∀ v b,
    Exact (∃ p ∈ ps, p.Fits v) (fun es => ∃ p, IsFirst (·.Fits v) ps p ∧ p.Binds v es) b
      (matchAny ps v b)
  | [], _, v, b => exact_failed nofun b
  | p :: ps, h, v, b => by
    obtain ⟨hp, hps⟩ := Bool.and_eq_true_iff.mp h
    rw [matchAny]
    rcases p.match_exact hp v [] with ⟨es, he, hr⟩ | ⟨hf, b', hr⟩
    · have hupdate : b.update (Table.ofEntries es) = b.update es := Table.update_ofEntries b es
      rw [hr]
      refine .inl ⟨es, ⟨p, .head he.fits, he⟩, ?_⟩
      rw [← hupdate]
      rfl
    · rw [hr]
      refine (matchAny_exact ps hps v b).imp (fun h => ?_) fun es h => ?_
      · obtain ⟨q, hq, hfit⟩ := h
        rcases List.mem_cons.mp hq with rfl | hq
        · exact absurd hfit hf
        · exact ⟨q, hq, hfit⟩
      · obtain ⟨q, hq, he⟩ := h
        exact ⟨q, .tail hf hq, he⟩
end

end MessageLang
