import Mathlib.Data.List.Infix
import MessageLang.Evaluation.Operation
import MessageLang.Proofs.Evaluation.Lookups
/-!
# Environments and what was done with them

After any operations a name stands for what the latest `set` of it has given it whose scope has not
been left since, and otherwise for what the bottom scope held at the start. Which settings these are
is said by the operations alone, from the number of scopes at each time.

* `depth`: how many scopes there are after operations on an environment that starts with two.
* `IsLive`: the scope that was the innermost one at a time has not been left since.
* `Latest`, `LatestWithin`: the latest setting of a name, in all scopes or in the outermost ones.
* `performAll_traces`: what the names stand for in the outermost scopes, for any number of them.
* `performAll_block`: a block that leaves the scopes it enters changes nothing.
* `lookup_exact`: the answers after any operations.
-/
namespace MessageLang.Environment

/-! ## Histories -/

/-- The number of scopes behind an operation. The last one is never left. -/
def depthBehind (d : Nat) : Operation → Nat
  | .enter => d + 1
  | .exit => if d = 1 then 1 else d - 1
  | .set _ _ | .lookup _ | .isBound _ => d

/-- The number of scopes behind operations that start with two. -/
def depth (ops : List Operation) : Nat := ops.foldl depthBehind 2

/-- The first operations of a history are `start`, and the scope that was innermost behind them has
not been left since: at no later time there were fewer scopes. -/
def IsLive (ops start : List Operation) : Prop :=
  start <+: ops ∧ ∀ mid, start <+: mid → mid <+: ops → depth start ≤ depth mid

/-- Among the settings of a name whose scope has not been left the latest one gives it a value. -/
def Latest (ops : List Operation) (name : String) (v : Value) : Prop :=
  ∃ before, IsLive ops (before ++ [.set name v]) ∧
    ∀ before' v', IsLive ops (before' ++ [.set name v']) → before'.length ≤ before.length

/-- Operations that leave all scopes that they enter, and no other. -/
inductive IsBlock : List Operation → Prop where
  | nil : IsBlock []
  | set {name : String} {v : Value} {ops : List Operation} :
    IsBlock ops → IsBlock (.set name v :: ops)
  | lookup {name : String} {ops : List Operation} : IsBlock ops → IsBlock (.lookup name :: ops)
  | isBound {name : String} {ops : List Operation} : IsBlock ops → IsBlock (.isBound name :: ops)
  | scope {inner ops : List Operation} :
    IsBlock inner → IsBlock ops → IsBlock (.enter :: inner ++ .exit :: ops)

variable {ops start before : List Operation} {op : Operation} {name : String} {v w : Value}
  {level level' : Nat}

theorem depth_concat (ops : List Operation) (op : Operation) :
    depth (ops ++ [op]) = depthBehind (depth ops) op :=
  List.foldl_concat depthBehind 2 op ops

/-- Setting a name leaves the scopes as they are. -/
theorem depth_set (ops : List Operation) (name : String) (v : Value) :
    depth (ops ++ [.set name v]) = depth ops := depth_concat ops _

theorem one_le_depth (ops : List Operation) : 1 ≤ depth ops := by
  induction ops using List.reverseRecOn with
  | nil => decide
  | append_singleton ops op ih =>
    rw [depth_concat]
    cases op with
    | exit =>
      simp only [depthBehind]
      split <;> omega
    | enter => simp only [depthBehind]; omega
    | _ => exact ih

theorem performAll_cons (env : Environment) (op : Operation) (ops : List Operation) :
    env.performAll (op :: ops) = (env.perform op).2.performAll ops := rfl

theorem performAll_append (env : Environment) (ops more : List Operation) :
    env.performAll (ops ++ more) = (env.performAll ops).performAll more := List.foldl_append

theorem performAll_concat (env : Environment) (ops : List Operation) (op : Operation) :
    env.performAll (ops ++ [op]) = ((env.performAll ops).perform op).2 :=
  performAll_append env ops _

/-- Looking up a name changes nothing. -/
theorem perform_lookup (env : Environment) (name : String) :
    (env.perform (.lookup name)).2 = env := by
  simp only [perform]
  split <;> rfl

/-! ## Settings whose scope has not been left -/

theorem isLive_concat : IsLive (ops ++ [op]) start ↔
    start = ops ++ [op] ∨ IsLive ops start ∧ depth start ≤ depth (ops ++ [op]) := by
  constructor
  · rintro ⟨hpre, hdepth⟩
    rcases List.prefix_concat_iff.mp hpre with rfl | hstart
    · exact .inl rfl
    · refine .inr ⟨⟨hstart, fun mid h h' => ?_⟩, hdepth _ hpre List.prefix_rfl⟩
      exact hdepth mid h (h'.trans (List.prefix_append ops [op]))
  · rintro (rfl | ⟨⟨hstart, hdepth⟩, hlast⟩)
    · refine ⟨List.prefix_rfl, fun mid h h' => ?_⟩
      rw [h.eq_of_length_le h'.length_le]
    · refine ⟨hstart.trans (List.prefix_append ops [op]), fun mid h h' => ?_⟩
      rcases List.prefix_concat_iff.mp h' with rfl | hmid
      · exact hlast
      · exact hdepth mid h hmid

theorem IsLive.depth_le (h : IsLive ops start) : depth start ≤ depth ops :=
  h.2 ops h.1 List.prefix_rfl

/-- The latest setting of a name in the outermost scopes, up to a number of them. -/
def LatestWithin (level : Nat) (ops : List Operation) (name : String) (v : Value) : Prop :=
  ∃ before, IsLive ops (before ++ [.set name v]) ∧ depth before ≤ level ∧
    ∀ before' v', IsLive ops (before' ++ [.set name v']) → depth before' ≤ level →
      before'.length ≤ before.length

/-- All scopes taken together have the latest setting. -/
theorem latestWithin_depth : LatestWithin (depth ops) ops name v ↔ Latest ops name v := by
  have hle : ∀ before v, IsLive ops (before ++ [.set name v]) → depth before ≤ depth ops := by
    intro before v h
    have := h.depth_le
    rwa [depth_set] at this
  constructor
  · rintro ⟨before, hlive, -, hlast⟩
    exact ⟨before, hlive, fun before' v' h => hlast before' v' h (hle before' v' h)⟩
  · rintro ⟨before, hlive, hlast⟩
    exact ⟨before, hlive, hle before v hlive, fun before' v' h _ => hlast before' v' h⟩

/-- An operation that neither sets a name in the outermost scopes nor leaves one of these does not
change their latest setting of it. -/
theorem latestWithin_congr (h : ∀ before v,
    IsLive (ops ++ [op]) (before ++ [.set name v]) ∧ depth before ≤ level ↔
      IsLive ops (before ++ [.set name v]) ∧ depth before ≤ level') :
    LatestWithin level (ops ++ [op]) name v ↔ LatestWithin level' ops name v := by
  constructor
  · rintro ⟨before, hlive, hle, hlast⟩
    obtain ⟨hlive', hle'⟩ := (h before v).mp ⟨hlive, hle⟩
    refine ⟨before, hlive', hle', fun before' v' h' hd' => ?_⟩
    obtain ⟨hl, hd⟩ := (h before' v').mpr ⟨h', hd'⟩
    exact hlast before' v' hl hd
  · rintro ⟨before, hlive, hle, hlast⟩
    obtain ⟨hlive', hle'⟩ := (h before v).mpr ⟨hlive, hle⟩
    refine ⟨before, hlive', hle', fun before' v' h' hd' => ?_⟩
    obtain ⟨hl, hd⟩ := (h before' v').mp ⟨h', hd'⟩
    exact hlast before' v' hl hd

/-- The outermost scopes keep their settings while they are not left and nothing is set in them. -/
theorem latestWithin_concat (hset : ∀ v, op = .set name v → level < depth ops)
    (hlevel : level ≤ depth (ops ++ [op])) :
    LatestWithin level (ops ++ [op]) name v ↔ LatestWithin level ops name v := by
  refine latestWithin_congr fun before v => ?_
  rw [isLive_concat, depth_set]
  constructor
  · rintro ⟨heq | ⟨hlive, -⟩, hle⟩
    · obtain ⟨rfl, hop⟩ := List.append_inj' heq rfl
      have := hset v (List.cons.inj hop).1.symm
      omega
    · exact ⟨hlive, hle⟩
  · rintro ⟨hlive, hle⟩
    exact ⟨.inr ⟨hlive, by omega⟩, hle⟩

/-- In a new scope nothing is set. -/
theorem latestWithin_enter : LatestWithin (depth ops + 1) (ops ++ [.enter]) name v ↔
    LatestWithin (depth ops) ops name v := by
  refine latestWithin_congr fun before v => ?_
  have hdepth : depth (ops ++ [.enter]) = depth ops + 1 := depth_concat ops _
  rw [isLive_concat, depth_set, hdepth]
  constructor
  · rintro ⟨heq | ⟨hlive, -⟩, -⟩
    · cases (List.append_inj' heq rfl).2
    · have := hlive.depth_le
      rw [depth_set] at this
      exact ⟨hlive, this⟩
  · rintro ⟨hlive, hle⟩
    exact ⟨.inr ⟨hlive, by omega⟩, by omega⟩

/-- What is set is set. -/
theorem latestWithin_set : LatestWithin (depth ops) (ops ++ [.set name w]) name v ↔ w = v := by
  have hlive : IsLive (ops ++ [.set name w]) (ops ++ [.set name w]) :=
    isLive_concat.mpr (.inl rfl)
  constructor
  · rintro ⟨before, ⟨hpre, -⟩, -, hlast⟩
    have hle := hlast ops w hlive (Nat.le_refl _)
    have heq := hpre.eq_of_length_le (by simpa using hle)
    cases (List.append_inj' heq rfl).2
    rfl
  · rintro rfl
    refine ⟨ops, hlive, Nat.le_refl _, fun before' v' h _ => ?_⟩
    simpa using h.1.length_le

/-! ## What names stand for -/

/-- The outermost scopes of an environment. -/
def outermost (env : Environment) (level : Nat) : Environment :=
  { env with upper := env.upper.drop (env.upper.length + 1 - level) }

theorem outermost_all (env : Environment) : env.outermost (env.upper.length + 1) = env := by
  simp [outermost]

/-- A name stands for what was found, or for what it stands for otherwise if nothing was found. -/
def StandsFor (found : Value → Prop) (otherwise value : Option Value) : Prop :=
  ∀ v, value = some v ↔ found v ∨ (∀ w, ¬ found w) ∧ otherwise = some v

theorem StandsFor.congr {found found' : Value → Prop} {otherwise value : Option Value}
    (h : StandsFor found otherwise value) (hf : ∀ v, found' v ↔ found v) :
    StandsFor found' otherwise value := by
  intro v
  simp only [h v, hf]

/-- The environment behind a history that started with the given bottom scope: it has as many scopes
as the history says, and in any number of its outermost scopes a name stands for the latest value
set in them. -/
structure Traces (bottom : Bindings) (ops : List Operation) (env : Environment) : Prop where
  depth_eq : env.upper.length + 1 = depth ops
  standsFor : ∀ level, 1 ≤ level → level ≤ depth ops → ∀ name,
    StandsFor (LatestWithin level ops name) (bottom.get? name) ((env.outermost level).get? name)

section

variable {bottom : Bindings} {env : Environment}

theorem traces_nil (bottom : Bindings) : Traces bottom [] (onTopOf bottom) := by
  refine ⟨rfl, fun level hone hle name v => ?_⟩
  have hnone : ∀ w, ¬ LatestWithin level [] name w := by
    rintro w ⟨before, ⟨hpre, -⟩, -⟩
    simpa using hpre.length_le
  have hget : ((onTopOf bottom).outermost level).get? name = bottom.get? name := by
    have hlevel : level = 1 ∨ level = 2 := by
      have : depth [] = 2 := rfl
      omega
    rcases hlevel with rfl | rfl <;> rfl
  rw [hget]
  simp [hnone]

/-- An operation that changes neither the scopes nor what is set. -/
theorem Traces.quiet (h : Traces bottom ops env) (hdepth : depth (ops ++ [op]) = depth ops)
    (hset : ∀ name v, op ≠ .set name v) : Traces bottom (ops ++ [op]) env := by
  refine ⟨by rw [hdepth, h.depth_eq], fun level hone hle name => ?_⟩
  refine (h.standsFor level hone (by omega) name).congr fun v => ?_
  exact latestWithin_concat (fun v heq => absurd heq (hset name v)) hle

theorem Traces.enter (h : Traces bottom ops env) : Traces bottom (ops ++ [.enter]) env.enter := by
  have hdepth : depth (ops ++ [.enter]) = depth ops + 1 := depth_concat ops _
  have henv := h.depth_eq
  refine ⟨by simp [Environment.enter, push, hdepth, henv], fun level hone hle name => ?_⟩
  by_cases hlevel : level = depth ops + 1
  · have hget : (env.enter.outermost level).get? name = (env.outermost (depth ops)).get? name := by
      have hall : env.enter.outermost level = env.enter := by
        rw [hlevel, ← henv]
        exact outermost_all env.enter
      rw [hall, ← henv, outermost_all, Environment.enter, get?_push]
      rfl
    rw [hget, hlevel]
    exact (h.standsFor _ (one_le_depth ops) (Nat.le_refl _) name).congr fun v => latestWithin_enter
  · have hsame : env.enter.outermost level = env.outermost level := by
      have hdrop : env.upper.length + 1 + 1 - level = (env.upper.length + 1 - level) + 1 := by omega
      simp [outermost, Environment.enter, push, hdrop]
    rw [hsame]
    refine (h.standsFor level hone (by omega) name).congr fun v => ?_
    exact latestWithin_concat (by simp) hle

/-- The scope that is left takes its settings with it. -/
theorem Traces.leave (h : Traces bottom ops env) (hupper : env.upper ≠ []) :
    Traces bottom (ops ++ [.exit]) env.leave := by
  have henv := h.depth_eq
  obtain ⟨scope, rest, hscopes⟩ := List.exists_cons_of_ne_nil hupper
  rw [hscopes, List.length_cons] at henv
  have hdepth : depth (ops ++ [.exit]) = depth ops - 1 := by
    rw [depth_concat, depthBehind, if_neg (by omega)]
  refine ⟨by simp [Environment.leave, hscopes, hdepth, ← henv], fun level hone hle name => ?_⟩
  have hsame : env.leave.outermost level = env.outermost level := by
    have hdrop : rest.length + 1 + 1 - level = (rest.length + 1 - level) + 1 := by omega
    simp [outermost, Environment.leave, hscopes, hdrop]
  rw [hsame]
  refine (h.standsFor level hone (by omega) name).congr fun v => ?_
  exact latestWithin_concat (by simp) hle

/-- A value that is set is that of the name in the innermost scope; the others are as before. -/
theorem Traces.set (h : Traces bottom ops env) (name : String) (w : Value) :
    Traces bottom (ops ++ [.set name w]) (env.set name w) := by
  have hdepth : depth (ops ++ [.set name w]) = depth ops := depth_set ops name w
  have hlength : (env.set name w).upper.length = env.upper.length := by
    cases hupper : env.upper <;> simp [Environment.set, hupper]
  have henv := h.depth_eq
  refine ⟨by rw [hlength, hdepth, henv], fun level hone hle other => ?_⟩
  by_cases hlevel : level = depth ops
  · have hall : (env.set name w).outermost level = env.set name w := by
      rw [hlevel, ← henv, ← hlength]
      exact outermost_all (env.set name w)
    rw [hall, get?_set]
    by_cases hother : other = name
    · subst hother
      intro v
      rw [hlevel]
      simp [latestWithin_set]
    · have hold := h.standsFor _ (one_le_depth ops) (Nat.le_refl _) other
      rw [← henv, outermost_all, henv] at hold
      rw [hlevel, beq_eq_false_iff_ne.mpr hother]
      refine hold.congr fun v => latestWithin_concat (fun v' heq => ?_) (by omega)
      cases heq
      exact absurd rfl hother
  · have hsame : (env.set name w).outermost level = env.outermost level := by
      obtain ⟨scope, rest, hupper⟩ : ∃ scope rest, env.upper = scope :: rest := by
        cases hupper : env.upper with
        | nil =>
          simp [hupper] at henv
          omega
        | cons scope rest => exact ⟨scope, rest, rfl⟩
      have hdrop : rest.length + 1 + 1 - level = (rest.length + 1 - level) + 1 := by
        rw [hupper, List.length_cons] at henv
        omega
      simp [outermost, Environment.set, hupper, hdrop]
    rw [hsame]
    refine (h.standsFor level hone (by omega) other).congr fun v => ?_
    exact latestWithin_concat (fun _ _ => by omega) hle

theorem Traces.perform (h : Traces bottom ops env) (op : Operation) :
    Traces bottom (ops ++ [op]) (env.perform op).2 := by
  cases op with
  | enter => exact h.enter
  | set name v => exact h.set name v
  | isBound name => exact h.quiet (depth_concat ops _) (by simp)
  | lookup name =>
    rw [perform_lookup]
    exact h.quiet (depth_concat ops _) (by simp)
  | exit =>
    by_cases hupper : env.upper = []
    · have hsame : (env.perform .exit).2 = env := by
        simp [Environment.perform, exit?, hupper]
      have hone : depth ops = 1 := by
        rw [← h.depth_eq, hupper]
        rfl
      rw [hsame]
      refine h.quiet ?_ (by simp)
      rw [depth_concat, depthBehind, if_pos hone, hone]
    · have hleave : (env.perform .exit).2 = env.leave := by
        simp [Environment.perform, exit?, hupper]
      rw [hleave]
      exact h.leave hupper

/-- In whatever way an environment is used, it follows its history. -/
theorem performAll_traces (bottom : Bindings) (ops : List Operation) :
    Traces bottom ops ((onTopOf bottom).performAll ops) := by
  induction ops using List.reverseRecOn with
  | nil => exact traces_nil bottom
  | append_singleton ops op ih =>
    rw [performAll_concat]
    exact ih.perform op

/-! ## Blocks -/

/-- Within a scope a block can only change that scope. -/
theorem performAll_inner (h : IsBlock ops) (bottom scope : Bindings) (rest : List Bindings) :
    ∃ scope', performAll ⟨bottom, scope :: rest⟩ ops = ⟨bottom, scope' :: rest⟩ := by
  induction h generalizing scope rest with
  | nil => exact ⟨scope, rfl⟩
  | @set name v ops _ ih => exact ih (scope.set name v) rest
  | isBound _ ih => exact ih scope rest
  | @lookup name ops _ ih =>
    obtain ⟨scope', hops⟩ := ih scope rest
    refine ⟨scope', ?_⟩
    rw [performAll_cons, perform_lookup, hops]
  | @scope inner ops _ _ ihinner ihops =>
    obtain ⟨inside, hinner⟩ := ihinner [] (scope :: rest)
    obtain ⟨scope', hops⟩ := ihops scope rest
    refine ⟨scope', ?_⟩
    have hentered : (performAll ⟨bottom, scope :: rest⟩ (.enter :: inner)) =
        ⟨bottom, inside :: scope :: rest⟩ := hinner
    rw [performAll_append, hentered]
    exact hops

/-- A block in a scope of its own changes nothing. -/
theorem performAll_block (h : IsBlock ops) (env : Environment) :
    env.performAll (.enter :: ops ++ [.exit]) = env := by
  obtain ⟨inside, hinner⟩ := performAll_inner h env.bottom [] env.upper
  have hentered : env.performAll (.enter :: ops) = ⟨env.bottom, inside :: env.upper⟩ := hinner
  rw [performAll_concat, hentered]
  rfl

/-! ## Answers -/

/-- Whatever was done with an environment: a name that is looked up has the value that was set last
in a scope that has not been left since, or else the one that the bottom scope held at the start, or
else it is unbound; it is bound exactly if it has a value. A scope is left unless it is the only
one; then nothing changes. A block in a scope of its own leaves every name as it was. -/
theorem lookup_exact (bottom : Bindings) (ops : List Operation) :
    let env := (onTopOf bottom).performAll ops
    (∀ name,
      (∀ v, (env.perform (.lookup name)).1 = .ok (.value v) ↔
        Latest ops name v ∨ (∀ w, ¬ Latest ops name w) ∧ bottom.get? name = some v) ∧
      ((∀ v, (env.perform (.lookup name)).1 ≠ .ok (.value v)) →
        (env.perform (.lookup name)).1 = .error (.unbound name)) ∧
      ∃ b, (env.perform (.isBound name)).1 = .ok (.truth b) ∧
        (b = true ↔ ∃ v, (env.perform (.lookup name)).1 = .ok (.value v))) ∧
    ((env.perform .exit).1 = .error .onlyScope ↔ depth ops = 1) ∧
    ((env.perform .exit).1 = .error .onlyScope → (env.perform .exit).2 = env) ∧
    ∀ block, IsBlock block →
      (onTopOf bottom).performAll (ops ++ (.enter :: block ++ [.exit])) = env := by
  intro env
  have htraces : Traces bottom ops env := performAll_traces bottom ops
  have hlookup : ∀ name v, (env.perform (.lookup name)).1 = .ok (.value v) ↔
      env.get? name = some v := by
    intro name v
    simp only [perform]
    cases env.get? name <;> simp
  refine ⟨fun name => ⟨fun v => ?_, fun hnone => ?_, env.isBound name, rfl, ?_⟩, ?_, ?_,
    fun block hblock => ?_⟩
  · have hstands := htraces.standsFor _ (one_le_depth ops) (Nat.le_refl _) name v
    rw [← htraces.depth_eq, outermost_all, htraces.depth_eq] at hstands
    simp only [hlookup, hstands, latestWithin_depth]
  · cases hget : env.get? name with
    | none => simp only [perform, hget]
    | some v => exact absurd ((hlookup name v).mpr hget) (hnone v)
  · simp only [hlookup, isBound, Option.isSome_iff_exists]
  · have hdepth := htraces.depth_eq
    cases hupper : env.upper with
    | nil => simp [perform, exit?, ← hdepth, hupper]
    | cons scope rest => simp [perform, exit?, ← hdepth, hupper]
  · simp only [perform, exit?]
    split <;> simp
  · rw [performAll_append, performAll_block hblock]

/-- A name that is hidden in a scope has its first value again behind it. -/
theorem lookup_exact_shadowed :
    Latest [.set "x" (.int 1), .enter, .set "x" (.int 2), .exit] "x" (.int 1) ∧
      initial.performAll ([.set "x" (.int 1)] ++ (.enter :: [.set "x" (.int 2)] ++ [.exit])) =
        initial.performAll [.set "x" (.int 1)] := by
  obtain ⟨hnames, -⟩ :=
    lookup_exact Builtin.bindings [.set "x" (.int 1), .enter, .set "x" (.int 2), .exit]
  obtain ⟨-, -, -, hblocks⟩ := lookup_exact Builtin.bindings [.set "x" (.int 1)]
  refine ⟨?_, hblocks _ (.set .nil)⟩
  rcases ((hnames "x").1 (.int 1)).mp rfl with hlatest | ⟨-, hbottom⟩
  · exact hlatest
  · cases hbottom

end
end MessageLang.Environment
