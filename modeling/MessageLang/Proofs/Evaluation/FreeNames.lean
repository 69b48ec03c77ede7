import MessageLang.Proofs.Evaluation.Lookups
import MessageLang.Proofs.Evaluation.Scopes
import MessageLang.Proofs.Evaluation.Shapes
import MessageLang.Proofs.Expansion.Guarded
/-!
# The names that a run depends on

A name stands free where no pattern of an arm around it binds it. Evaluation looks up no other names
outside: the variables of generated matches are found in the scopes of these matches, whatever else
has the same names.

* `Pattern.bindsAll`, `Pattern.Binds.names_subset`: patterns that bind all their names whenever they
  match.
* `Expr.freeNames`, `Program.freeNames`: the names that stand free.
* `Expr.HangsOnFree`: expressions whose evaluation hangs on what stands free in them only;
  `Expr.IsGuarded.hangsOnFree`: guarded code.
* `execute_result_congr`: compiled programs, with inputs that agree on the free names.
-/
namespace MessageLang

open Evaluating Omittable

/-! ## Patterns -/

mutual
/-- Whether a pattern binds all its names whenever it matches: none of them stands in an
alternative. -/
def Pattern.bindsAll : Pattern → Bool
  | .wildcard _ | .var _ _ | .variant _ none _ => true
  | .variant name (some p) _ => name == "Some" && p.bindsAll
  | .tuple ps _ | .list ps _ => patternsBindAll ps
  | .cons head tail _ => head.bindsAll && tail.bindsAll
  | .alternatives ps _ => (namesOfPatterns ps).isEmpty
  | .aliased p _ _ => p.bindsAll
  | .other _ => false

def patternsBindAll : List Pattern → Bool
  | [] => true
  | p :: rest => p.bindsAll && patternsBindAll rest
end

namespace Pattern

mutual
theorem Binds.names_subset {p : Pattern} {v : Value} {entries : List (String × Value)} :
    p.Binds v entries → p.bindsAll = true → p.names ⊆ Table.keys entries
  | .wildcard, _ => List.nil_subset _
  | .var, _ => List.Subset.refl _
  | @Binds.none none _, _ => List.nil_subset _
  | @Binds.none (.some p) _, h => nomatch (Bool.and_eq_true_iff.mp h).1
  | .some _, _ => List.nil_subset _
  | .content _ hp, h => hp.names_subset (Bool.and_eq_true_iff.mp h).2
  | .tuple hps, h => hps.names_subset h
  | .list hps, h => hps.names_subset h
  | .cons hh ht, h => by
    obtain ⟨h₁, h₂⟩ := Bool.and_eq_true_iff.mp h
    rw [names, Table.keys_append, List.append_subset]
    exact ⟨List.subset_append_of_subset_left _ (hh.names_subset h₁),
      List.subset_append_of_subset_right _ (ht.names_subset h₂)⟩
  | .alternatives _ _, h => by
    rw [names, List.isEmpty_iff.mp h]
    exact List.nil_subset _
  | .aliased hp, h => by
    rw [names, Table.keys_append, List.cons_subset]
    exact ⟨List.mem_append_right _ List.mem_cons_self,
      List.subset_append_of_subset_left _ (hp.names_subset h)⟩

theorem BindAll.names_subset {ps : List Pattern} {vs : List Value}
    {entries : List (String × Value)} :
    BindAll ps vs entries → patternsBindAll ps = true → namesOfPatterns ps ⊆ Table.keys entries
  | .nil, _ => List.nil_subset _
  | .cons hp hps, h => by
    obtain ⟨h₁, h₂⟩ := Bool.and_eq_true_iff.mp h
    rw [namesOfPatterns, Table.keys_append, List.append_subset]
    exact ⟨List.subset_append_of_subset_left _ (hp.names_subset h₁),
      List.subset_append_of_subset_right _ (hps.names_subset h₂)⟩
end

theorem names_subset_of_match {p : Pattern} (hk : p.isKnown = true) (hb : p.bindsAll = true)
    {v : Value} {b : Bindings} (h : p.match v [] = .ok (true, b)) : p.names ⊆ b.keys := by
  rcases p.match_exact hk v [] with ⟨entries, he, hr⟩ | ⟨-, b', hr⟩
  · cases h.symm.trans hr
    exact fun x hx => Table.mem_keys_ofEntries.mpr (he.names_subset hb hx)
  · cases h.symm.trans hr

end Pattern

/-! ## Free names -/

mutual
/-- The names that stand free in an expression, in order: those that no pattern of an arm around
them binds. -/
def Expr.freeNames : Expr → List String
  | .identifier name _ => [name]
  | .apply f args _ => f.freeNames ++ freeNamesOfArguments args
  | .constraint e _ _ => e.freeNames
  | .extension _ (some e) _ => e.freeNames
  | .tuple es _ | .list es _ => freeNamesOfExprs es
  | .binary left _ right _ => left.freeNames ++ right.freeNames
  | .cons head tail _ => head.freeNames ++ tail.freeNames
  | .matching e arms _ => e.freeNames ++ freeNamesOfArms arms
  | .constant _ | .unit _ | .extension _ none _ | .other _ => []

def freeNamesOfExprs : List Expr → List String
  | [] => []
  | e :: rest => e.freeNames ++ freeNamesOfExprs rest

def freeNamesOfArguments : List Argument → List String
  | [] => []
  | .mk _ e :: rest => e.freeNames ++ freeNamesOfArguments rest
  | .other _ :: rest => freeNamesOfArguments rest

def freeNamesOfArms : List Arm → List String
  | [] => []
  | .mk p body _ :: rest => body.freeNames.filter (· ∉ p.names) ++ freeNamesOfArms rest
  | .other _ :: rest => freeNamesOfArms rest
end

def Statement.freeNames : Statement → List String
  | .binding _ e _ | .expression e _ => e.freeNames
  | .other _ => []

def Program.freeNames (p : Program) : List String := p.statements.flatMap Statement.freeNames

theorem freeNames_subset_of_mem {es : List Expr} {e : Expr} (h : e ∈ es) :
    e.freeNames ⊆ freeNamesOfExprs es := by
  induction es with
  | nil => cases h
  | cons x es ih =>
    rcases List.mem_cons.mp h with rfl | h
    · exact List.subset_append_left _ _
    · exact List.subset_append_of_subset_right _ (ih h)

theorem freeNames_subset_of_mem_arguments {args : List Argument} {label : Label} {e : Expr}
    (h : .mk label e ∈ args) : e.freeNames ⊆ freeNamesOfArguments args := by
  induction args with
  | nil => cases h
  | cons a args ih =>
    rcases List.mem_cons.mp h with rfl | hrest
    · exact List.subset_append_left _ _
    · cases a with
      | mk label e => exact List.subset_append_of_subset_right _ (ih hrest)
      | other n => exact ih hrest

/-- The names in the body of an arm stand free, but for those of its pattern. -/
theorem mem_freeNamesOfArms {arms : List Arm} {p : Pattern} {body : Expr} {l : Option Location}
    {name : String} (h : .mk p body l ∈ arms) (hn : name ∈ body.freeNames) (hp : name ∉ p.names) :
    name ∈ freeNamesOfArms arms := by
  induction arms with
  | nil => cases h
  | cons a arms ih =>
    rcases List.mem_cons.mp h with rfl | hrest
    · exact List.mem_append_left _ (List.mem_filter.mpr ⟨hn, decide_eq_true hp⟩)
    · cases a with
      | mk p body l => exact List.mem_append_right _ (ih hrest)
      | other n => exact ih hrest

/-! ## Environments that agree -/

namespace Environment

variable {names : List String} {env env' : Environment}

/-- Both environments have the same values for the given names. -/
def AgreeOn (names : List String) (env env' : Environment) : Prop :=
  ∀ name ∈ names, env.get? name = env'.get? name

theorem AgreeOn.set (h : AgreeOn names env env') (k : String) (v : Value) :
    AgreeOn names (env.set k v) (env'.set k v) := by
  intro name hn
  rw [get?_set, get?_set, h name hn]

/-- Below a scope, environments need not agree on the names that the scope has. -/
theorem AgreeOn.push {b : Bindings} {bound inner : List String} (h : AgreeOn names env env')
    (hb : bound ⊆ b.keys) (hn : ∀ name ∈ inner, name ∉ bound → name ∈ names) :
    AgreeOn inner (env.push b) (env'.push b) := by
  intro name hi
  rw [get?_push, get?_push]
  by_cases hbound : name ∈ bound
  · have hhas : (b.get? name).isSome = true := Table.has_eq_true_iff.mpr (hb hbound)
    obtain ⟨v, hv⟩ := Option.isSome_iff_exists.mp hhas
    rw [hv]
    rfl
  · rw [h name (hn name hi hbound)]

end Environment

open Environment

/-! ## Expressions -/

namespace Expr

/-- The evaluation hangs on the names that stand free only, and leaves the environment. -/
def HangsOnFree (e : Expr) : Prop :=
  ∀ names, e.freeNames ⊆ names → e.eval.Respects (AgreeOn names)

variable {e f : Expr} {es : List Expr} {l : Option Location}

theorem hangsOnFree_identifier (name : String) (l : Option Location) :
    (identifier name l).HangsOnFree :=
  fun _ hn => respects_lookup (fun _ _ h => h name (hn (List.mem_singleton.mpr rfl))) l

theorem hangsOnFree_evalAll {names : List String} (h : ∀ e ∈ es, e.HangsOnFree)
    (hn : freeNamesOfExprs es ⊆ names) : (evalAll es).Respects (AgreeOn names) :=
  respects_evalAll fun e he => h e he names (List.Subset.trans (freeNames_subset_of_mem he) hn)

theorem hangsOnFree_tuple (h : ∀ e ∈ es, e.HangsOnFree) : (tuple es l).HangsOnFree :=
  fun _ hn => (hangsOnFree_evalAll h hn).bind fun _ => respects_pure _

theorem hangsOnFree_list (h : ∀ e ∈ es, e.HangsOnFree) : (list es l).HangsOnFree :=
  fun _ hn => (hangsOnFree_evalAll h hn).bind fun _ => respects_pure _

theorem hangsOnFree_apply {args : List Argument} (hf : f.HangsOnFree)
    (h : ∀ label e, .mk label e ∈ args → e.HangsOnFree) : (apply f args l).HangsOnFree := by
  intro names hn
  obtain ⟨hnf, hna⟩ := List.append_subset.mp hn
  refine (hf names hnf).bind fun v => respects_applyArguments (fun label e he => ?_) _ _ v
  exact h label e he names (List.Subset.trans (freeNames_subset_of_mem_arguments he) hna)

theorem HangsOnFree.call (hf : f.HangsOnFree) (he : e.HangsOnFree) :
    (Expr.call f [e] l).HangsOnFree := by
  refine hangsOnFree_apply hf fun label x hx => ?_
  cases List.mem_singleton.mp hx
  exact he

theorem hangsOnFree_cons {head tail : Expr} (hh : head.HangsOnFree) (ht : tail.HangsOnFree) :
    (cons head tail l).HangsOnFree := by
  intro names hn
  obtain ⟨hnh, hnt⟩ := List.append_subset.mp hn
  refine (hh names hnh).bind fun v => (ht names hnt).bind fun w => ?_
  split
  · exact respects_pure _
  · exact respects_throw _

/-- The names of a pattern are found in the scope of its arm, if it binds all of them. -/
theorem hangsOnFree_matching {arms : List Arm} (he : e.HangsOnFree) (ha : ∀ a ∈ arms, a.IsArm)
    (h : ∀ p body l, .mk p body l ∈ arms →
      p.isKnown = true ∧ p.bindsAll = true ∧ body.HangsOnFree) :
    (matching e arms l).HangsOnFree := by
  intro names hn
  obtain ⟨hne, hna⟩ := List.append_subset.mp hn
  refine (he names hne).bind fun v => respects_evalArms ha v (fun p body l hm b hb => ?_) l
  obtain ⟨hknown, hall, hbody⟩ := h p body l hm
  refine (hbody body.freeNames (List.Subset.refl _)).inScope fun env env' hagree => ?_
  exact hagree.push (Pattern.names_subset_of_match hknown hall hb) fun name hi hp =>
    hna (mem_freeNamesOfArms hm hi hp)

/-- The evaluation of guarded code hangs on the names that stand free only. -/
theorem IsGuarded.hangsOnFree {listed : Bool} (h : e.IsGuarded listed) : e.HangsOnFree := by
  induction h with
  | constant | unit => exact fun _ _ => respects_pure _
  | identifier => exact hangsOnFree_identifier _ _
  | apply _ _ _ ihf iha => exact hangsOnFree_apply ihf iha
  | constraint _ ih => exact ih
  | extension => exact fun _ _ => respects_throw _
  | tuple _ ih => exact hangsOnFree_tuple ih
  | list _ ih => exact hangsOnFree_list ih
  | binary _ _ ihl ihr =>
    intro names hn
    obtain ⟨hnl, hnr⟩ := List.append_subset.mp hn
    exact (ihl names hnl).bind fun a => (ihr names hnr).bind fun b => respects_ofExcept _
  | cons _ _ ihh iht => exact hangsOnFree_cons ihh iht
  | onto _ _ _ ihe iht ihw =>
    refine hangsOnFree_matching (hangsOnFree_tuple ?_) ?_ fun p body l hm => ?_
    · exact List.forall_mem_cons.mpr ⟨ihe, List.forall_mem_singleton.mpr iht⟩
    · exact List.forall_mem_cons.mpr ⟨trivial, List.forall_mem_singleton.mpr trivial⟩
    · rcases List.mem_cons.mp hm with hm | hm
      · cases hm
        exact ⟨rfl, rfl, hangsOnFree_identifier _ _⟩
      · cases List.mem_singleton.mp hm
        exact ⟨rfl, rfl, hangsOnFree_cons ihw (hangsOnFree_identifier _ _)⟩
  | collapse _ ih =>
    refine hangsOnFree_matching ih ?_ fun p body l hm => ?_
    · exact List.forall_mem_cons.mpr ⟨trivial, List.forall_mem_singleton.mpr trivial⟩
    · rcases List.mem_cons.mp hm with hm | hm
      · cases hm
        exact ⟨rfl, rfl, hangsOnFree_identifier _ _⟩
      · cases List.mem_singleton.mp hm
        exact ⟨rfl, rfl, .call (hangsOnFree_identifier _ _) (hangsOnFree_identifier _ _)⟩

end Expr

/-! ## Runs -/

section

variable {names : List String} {env env' : Environment}

/-- A statement has the same result in environments that agree on the names that stand free in it,
and leaves environments that agree as before. -/
theorem Statement.IsGuarded.outcome_eval_congr {s : Statement} (h : s.IsGuarded)
    (hn : s.freeNames ⊆ names) (ha : AgreeOn names env env') :
    ∃ r env₁ env₁', s.eval.outcome env = (r, env₁) ∧ s.eval.outcome env' = (r, env₁') ∧
      AgreeOn names env₁ env₁' := by
  cases h with
  | expression he =>
    obtain ⟨r, hr, hr'⟩ := he.hangsOnFree names hn env env' ha
    exact ⟨r, env, env', hr, hr', ha⟩
  | @binding name e l he =>
    obtain ⟨r, hr, hr'⟩ := he.hangsOnFree names hn env env' ha
    rw [Statement.eval, outcome_bind, outcome_bind, hr, hr']
    cases r with
    | ok v => exact ⟨.ok v, _, _, rfl, rfl, ha.set name v⟩
    | error failure => exact ⟨.error failure, _, _, rfl, rfl, ha⟩

/-- Statements have the same result in environments that agree on the names that stand free in
them. -/
theorem outcome_runStatements_congr {ss : List Statement} (h : ∀ s ∈ ss, s.IsGuarded)
    (hn : ∀ s ∈ ss, s.freeNames ⊆ names) (ha : AgreeOn names env env') (value : Value) :
    ((runStatements ss value).outcome env).1 = ((runStatements ss value).outcome env').1 := by
  induction ss generalizing env env' value with
  | nil => rfl
  | cons s ss ih =>
    obtain ⟨h₁, h₂⟩ := List.forall_mem_cons.mp h
    obtain ⟨hn₁, hn₂⟩ := List.forall_mem_cons.mp hn
    obtain ⟨r, env₁, env₁', hr, hr', ha'⟩ := h₁.outcome_eval_congr hn₁ ha
    rw [runStatements, outcome_bind, outcome_bind, hr, hr']
    cases r with
    | ok v => exact ih h₂ hn₂ ha' _
    | error failure => rfl

end

theorem Program.execute_result (p : Program) (inputs : Bindings) :
    (p.execute inputs).result =
      ((runStatements p.statements .none).outcome (.withInputs inputs)).1 := by
  unfold Program.execute
  cases (runStatements p.statements .none).outcome (.withInputs inputs) with
  | mk r env => cases r <;> rfl

/-- Whatever text compiles: with inputs that agree on the names that stand free in the program,
running it gives the same value, or fails for the same cause at the same place. -/
theorem execute_result_congr {file source : String} {q : Program}
    (hq : compile .standard file source = .ok q) {inputs inputs' : Bindings}
    (h : ∀ name ∈ q.freeNames, Table.last? inputs name = Table.last? inputs' name) :
    (q.execute inputs).result = (q.execute inputs').result := by
  have hagree : AgreeOn q.freeNames (withInputs inputs) (withInputs inputs') := by
    intro name hn
    rw [get?_withInputs, get?_withInputs, h name hn]
  have hfree : ∀ s ∈ q.statements, s.freeNames ⊆ q.freeNames :=
    fun s hs name hn => List.mem_flatMap.mpr ⟨s, hs, hn⟩
  rw [Program.execute_result, Program.execute_result]
  exact outcome_runStatements_congr (compile_isGuarded hq) hfree hagree .none

/-- Inputs with the names of the generated variables have no effect on a message that looks into an
option. -/
theorem execute_result_congr_generated :
    let inputs : Bindings := [("x", .int 1)]
    let more : Bindings :=
      [(contentName, .str "a"), (tailName, .none), (headName, .int 2), (resultName, .bool true)]
    ∃ q, compile .standard "a.ml" "[%message \"m\" ~x:(x : int sexp_option)];" = .ok q ∧
      "x" ∈ q.freeNames ∧
      (∀ name ∈ q.freeNames, Table.last? (inputs ++ more) name = Table.last? inputs name) ∧
      (q.execute (inputs ++ more)).result = (q.execute inputs).result := by
  intro inputs more
  have hcheck : ((compile .standard "a.ml"
      "[%message \"m\" ~x:(x : int sexp_option)];").toOption.any fun q =>
        q.freeNames.contains "x" &&
          q.freeNames.all fun name => !more.keys.contains name) = true := by
    decide +kernel
  obtain ⟨q, hq, hfree⟩ := exists_ok_of_any hcheck
  simp only [Bool.and_eq_true, List.contains_iff_mem, List.all_eq_true, Bool.not_eq_true',
    ← Bool.not_eq_true] at hfree
  obtain ⟨hx, hmore⟩ := hfree
  have hagree : ∀ name ∈ q.freeNames,
      Table.last? (inputs ++ more) name = Table.last? inputs name := by
    intro name hn
    rw [Table.last?_append, Table.last?_eq_none (hmore name hn), Option.none_or]
  exact ⟨q, hq, hx, hagree, execute_result_congr hq hagree⟩

end MessageLang
