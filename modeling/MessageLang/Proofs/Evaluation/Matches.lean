import MessageLang.Proofs.Evaluation.Lookups
import MessageLang.Proofs.Evaluation.Scopes
import MessageLang.Proofs.Evaluation.Shapes
/-!
# Matches

A match evaluates the body of the first arm that the value fits, with the names of its pattern, and
nothing is left of them. What earlier arms and alternatives have bound before they failed is never
seen.

* `Selects`: the body that a match comes to, and the entries of its scope; `Selects.unique`: there
  is one of each at most.
* `outcome_evalArms`: the arms of a match, by induction on them.
* `matching_exact`: single matches and match expressions.
-/
namespace MessageLang

open Evaluating

def Arm.isKnown : Arm → Bool
  | .mk p _ _ => p.isKnown
  | .other _ => false

/-- A value has the shape of an arm's pattern. -/
def Arm.Fits : Arm → Value → Prop
  | .mk p _ _, v => p.Fits v
  | .other _, _ => False

/-- The body of the first arm that a value fits, with the entries that the arm's pattern names. -/
def Selects (arms : List Arm) (v : Value) (body : Expr) (entries : List (String × Value)) : Prop :=
  ∃ p l, IsFirst (·.Fits v) arms (.mk p body l) ∧ p.Binds v entries

section

variable {arms : List Arm} {a : Arm} {v : Value} {body body' : Expr}
  {entries entries' : List (String × Value)}

theorem Selects.tail (h : Selects arms v body entries) (ha : ¬ a.Fits v) :
    Selects (a :: arms) v body entries := by
  obtain ⟨p, l, hf, hb⟩ := h
  exact ⟨p, l, .tail ha hf, hb⟩

theorem Selects.exists_fits (h : Selects arms v body entries) : ∃ a ∈ arms, a.Fits v := by
  obtain ⟨p, l, hf, -⟩ := h
  exact ⟨_, hf.mem, hf.holds⟩

theorem Selects.unique (h : Selects arms v body entries) (h' : Selects arms v body' entries') :
    body = body' ∧ entries = entries' := by
  obtain ⟨p, l, hf, hb⟩ := h
  obtain ⟨p', l', hf', hb'⟩ := h'
  cases hf.unique hf'
  exact ⟨rfl, hb.unique hb'⟩

end

/-- In a scope of its own a name stands for the last of its entries, and every other one for what it
stands for outside. -/
theorem Environment.get?_push_ofEntries (env : Environment) (entries : List (String × Value))
    (name : String) :
    (env.push (.ofEntries entries)).get? name = (Table.last? entries name).or (env.get? name) := by
  rw [get?_push, Table.get?_ofEntries]

/-- The arms of a match: the body of the first that fits is evaluated in a scope of its own. -/
theorem outcome_evalArms {arms : List Arm} (h : ∀ a ∈ arms, a.isKnown = true) (l : Option Location)
    (v : Value) (env : Environment) :
    (∃ body entries, Selects arms v body entries ∧ (evalArms l v arms).outcome env =
      ((body.eval.outcome (env.push (.ofEntries entries))).1, env)) ∨
    ((∀ a ∈ arms, ¬ a.Fits v) ∧
      (evalArms l v arms).outcome env = (.error (.reported (.noMatch v) l), env)) := by
  induction arms with
  | nil => exact .inr ⟨nofun, rfl⟩
  | cons a arms ih =>
    obtain ⟨ha, harms⟩ := List.forall_mem_cons.mp h
    cases a with
    | other n => cases ha
    | mk p body l' =>
      rw [evalArms]
      rcases p.match_exact ha v [] with ⟨entries, hb, hr⟩ | ⟨hf, b, hr⟩
      · refine .inl ⟨body, entries, ⟨p, l', .head hb.fits, hb⟩, ?_⟩
        rw [hr]
        exact body.confined_eval.outcome_inScope (.ofEntries entries) env
      · rw [hr]
        have hn : ¬ (Arm.mk p body l').Fits v := hf
        rcases ih harms with ⟨body', entries, hs, ho⟩ | ⟨hno, ho⟩
        · exact .inl ⟨body', entries, hs.tail hn, ho⟩
        · exact .inr ⟨List.forall_mem_cons.mpr ⟨hn, hno⟩, ho⟩

/-- A pattern whose constructors are `None` and `Some` matches exactly the values of its shape, with
the entries that it names. A match on a value that some arm fits goes on with the body of the first
such arm, in the environment with the arm's entries in front; if no arm fits, it fails. Either way
the environment is then what it was once the value was there, which for a proper scrutinee is what
it was before. -/
theorem matching_exact :
    (∀ p : Pattern, p.isKnown = true → ∀ v b, ∃ matched b', p.match v b = .ok (matched, b') ∧
      (matched = true ↔ p.Fits v) ∧
      (matched = true → ∃ entries, p.Binds v entries ∧ b' = b.update entries)) ∧
    ∀ (e : Expr) (arms : List Arm) (l : Option Location), (∀ a ∈ arms, a.isKnown = true) →
      ∀ env v env', e.eval.outcome env = (.ok v, env') →
        ((∃ a ∈ arms, a.Fits v) → ∃ body entries, Selects arms v body entries) ∧
        (∀ body entries, Selects arms v body entries →
          (∀ name, (env'.push (.ofEntries entries)).get? name =
            (Table.last? entries name).or (env'.get? name)) ∧
          (Expr.matching e arms l).eval.outcome env =
            ((body.eval.outcome (env'.push (.ofEntries entries))).1, env')) ∧
        ((∀ a ∈ arms, ¬ a.Fits v) → (Expr.matching e arms l).eval.outcome env =
          (.error (.reported (.noMatch v) l), env')) ∧
        (e.IsProper → env' = env) := by
  refine ⟨fun p hp v b => ?_, fun e arms l ha env v env' he => ?_⟩
  · rcases p.match_exact hp v b with ⟨entries, hb, hr⟩ | ⟨hf, b', hr⟩
    · exact ⟨true, _, hr, iff_of_true rfl hb.fits, fun _ => ⟨entries, hb, rfl⟩⟩
    · exact ⟨false, b', hr, iff_of_false Bool.false_ne_true hf, nofun⟩
  · have hmatch : (Expr.matching e arms l).eval.outcome env =
        (evalArms l v arms).outcome env' := by
      rw [Expr.eval, outcome_bind, he]
    have hproper : e.IsProper → env' = env := by
      intro hp
      have henv := hp.outcome_eval env
      rw [he] at henv
      exact congrArg Prod.snd henv
    rcases outcome_evalArms ha l v env' with ⟨body, entries, hs, ho⟩ | ⟨hno, ho⟩
    · refine ⟨fun _ => ⟨body, entries, hs⟩, fun body' entries' hs' => ?_, fun hno => ?_, hproper⟩
      · obtain ⟨rfl, rfl⟩ := hs.unique hs'
        exact ⟨env'.get?_push_ofEntries entries, hmatch.trans ho⟩
      · obtain ⟨a, hm, hf⟩ := hs.exists_fits
        exact absurd hf (hno a hm)
    · have hnone : ¬ ∃ a ∈ arms, a.Fits v := by
        rintro ⟨a, hm, hf⟩
        exact hno a hm hf
      exact ⟨fun hfit => absurd hfit hnone, fun _ _ hs => absurd hs.exists_fits hnone,
        fun _ => hmatch.trans ho, hproper⟩

/-- The first alternative binds a name before it fails; in the body the name is that of the second
one. -/
theorem matching_exact_alternatives :
    let items : List Value := [.int 1, .int 2]
    let e : Expr := .list (items.map fun v => .constant ⟨v, none, none, none⟩) none
    let one : Pattern := .cons (.var "x" none) (.list [] none) none
    let two : Pattern := .cons (.wildcard none) one none
    let arms : List Arm :=
      [.mk (.tuple [.var "x" none] none) (.identifier "y" none) none,
        .mk (.aliased (.alternatives [one, two] none) "y" none) (.identifier "x" none) none]
    let env := Environment.initial
    (∀ a ∈ arms, a.isKnown = true) ∧ e.eval.outcome env = (.ok (.list items), env) ∧ e.IsProper ∧
      Selects arms (.list items) (.identifier "x" none)
        [("x", .int 2), ("y", .list items)] ∧
      (Expr.matching e arms none).eval.outcome env = (.ok (.int 2), env) := by
  intro items e one two arms env
  have hknown : ∀ a ∈ arms, a.isKnown = true := by decide
  have heval : e.eval.outcome env = (.ok (.list items), env) := rfl
  have hproper : e.IsProper := by
    refine .list fun x hx => ?_
    obtain ⟨v, -, rfl⟩ := List.mem_map.mp hx
    exact .constant
  have hone : ¬ one.Fits (.list items) := by
    show ¬ Pattern.Fits (.cons (.var "x" none) (.list [] none) none) (.list [.int 1, .int 2])
    intro h
    cases h with
    | cons _ htail =>
      cases htail with
      | list hall => cases hall
  have htwo : two.Binds (.list items) [("x", .int 2)] := .cons .wildcard (.cons .var (.list .nil))
  have harm : (Pattern.aliased (.alternatives [one, two] none) "y" none).Binds (.list items)
      [("x", .int 2), ("y", .list items)] :=
    .aliased (.alternatives (.tail hone (.head htwo.fits)) htwo)
  have hselects : Selects arms (.list items) (.identifier "x" none)
      [("x", .int 2), ("y", .list items)] := by
    refine ⟨_, _, .tail (fun h => ?_) (.head harm.fits), harm⟩
    cases (h : Pattern.Fits _ _)
  obtain ⟨-, hbody, -, -⟩ := matching_exact.2 e arms none hknown env _ env heval
  exact ⟨hknown, heval, hproper, hselects, (hbody _ _ hselects).2⟩

end MessageLang
