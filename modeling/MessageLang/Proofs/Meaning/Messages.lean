import MessageLang.Proofs.Expansion.Messages
import MessageLang.Proofs.Meaning.Environment
import MessageLang.Proofs.Syntax.Bare
/-!
# The code of messages means what messages mean

The code of a message is put together from right to left: a list literal as long as every argument
contributes, and matches in front of it for those that may not. Its variables hide none of the names
that the contributions refer to.

* `Omittable.Denotes env item c`: the code of a contribution means `c`.
* `Argument.IsReadable.denotes`: the code of an argument's contribution means what it contributes.
* `meaning_foldr`, `meaning_assemble`: the code of all contributions means the list of them, and the
  message.
-/
namespace MessageLang

open Omittable

section

variable {env : Environment} {l : Option Location}

/-! ## Atoms, lists and tags -/

theorem meaning_atom (h : env.IsStandard) (tag : String) :
    (Code.atom l (.constant (.ofString tag l))).meaning env = some (.atom tag) := by
  have hname : (Expr.identifier "Sexp.Atom" l).meaning env = some (.builtin .makeAtom) := h.atom
  rw [Code.atom, meaning_call, hname]
  rfl

/-- The list of a list of values. -/
theorem meaning_codeList (h : env.IsStandard) {x : Expr} {vs : Option (List Value)}
    (hx : x.meaning env = vs.map Value.list) :
    (Code.list l x).meaning env = vs.bind Value.sexpList? := by
  have hname : (Expr.identifier "Sexp.List" l).meaning env = some (.builtin .makeList) := h.list
  rw [Code.list, meaning_call, hname, hx]
  cases vs with
  | none => rfl
  | some vs =>
    cases hall : vs.all Value.isSexp <;>
      simp [Value.call?, Value.isFunction, Value.call, Builtin.call, Value.sexpList?, hall,
        mismatch, Except.toOption]

/-- An expression behind a tag. -/
theorem meaning_tagged (h : env.IsStandard) (tag : String) (x : Expr) :
    (Code.tagged l (some tag) x).meaning env =
      (x.meaning env).bind fun v => Value.sexpList? [.atom tag, v] := by
  have hlist : (Expr.list [Code.atom l (.constant (.ofString tag l)), x] l).meaning env =
      ((x.meaning env).map fun v => [.atom tag, v]).map Value.list := by
    simp only [Expr.meaning, meanings, meaning_atom h]
    cases x.meaning env <;> rfl
  have hcode := meaning_codeList (l := l) h hlist
  rw [Option.bind_map] at hcode
  exact hcode

/-! ## Converters -/

theorem meanings_typeConverters {ts : List TypeExpr} {fs : List Expr}
    (h : ∀ t ∈ ts, ∀ f, t.converter = .ok f → f.meaning env = t.conversion? env)
    (hf : typeConverters ts = .ok fs) : meanings env fs = conversions? env ts := by
  induction ts generalizing fs with
  | nil =>
    cases hf
    rfl
  | cons t ts ih =>
    obtain ⟨h₁, h₂⟩ := List.forall_mem_cons.mp h
    rw [typeConverters] at hf
    cases ht : t.converter with
    | error failure =>
      rw [ht] at hf
      cases hf
    | ok f =>
      cases hts : typeConverters ts with
      | error failure =>
        rw [ht, hts] at hf
        cases hf
      | ok fs' =>
        rw [ht, hts] at hf
        cases hf
        rw [meanings, conversions?, h₁ f ht, ih h₂ hts]

/-- The code of a converter means the converter. -/
theorem TypeExpr.IsReadable.meaning_converter (henv : env.IsStandard) {t : TypeExpr}
    (h : t.IsReadable) {f : Expr} (hf : t.converter = .ok f) :
    f.meaning env = t.conversion? env := by
  induction h generalizing f with
  | @name name l =>
    cases hf
    show env.get? (Converter.name name) = _
    rw [TypeExpr.conversion?]
    cases env.get? (Converter.name name) <;> rfl
  | @applied name t l _ ht ih =>
    rw [TypeExpr.conversion?]
    unfold TypeExpr.converter at hf
    dsimp only at hf
    split at hf
    · rename_i hc
      cases hf
      show env.get? (Converter.name name) = _
      simp only [hc, if_true]
      cases env.get? (Converter.name name) <;> rfl
    · rename_i hc
      cases hts : typeConverters [t] with
      | error failure =>
        rw [hts] at hf
        cases hf
      | ok fs =>
        rw [hts] at hf
        cases hf
        have hone : ∀ u ∈ [t], ∀ f, u.converter = .ok f → f.meaning env = u.conversion? env := by
          intro u hu f hf
          rw [List.mem_singleton.mp hu] at hf ⊢
          exact ih hf
        simp only [meaning_callAll, meanings_typeConverters hone hts, if_neg hc]
        rfl
  | @tuple ts l hlen _ ih =>
    have hshort := isShortTuple_eq_false hlen
    unfold TypeExpr.converter at hf
    rw [if_neg (by simp [hshort])] at hf
    cases hts : typeConverters ts with
    | error failure =>
      rw [hts] at hf
      cases hf
    | ok fs =>
      rw [hts] at hf
      cases hf
      have hname : (Expr.identifier Converter.tupleName l).meaning env =
          some (.builtin (.family .tuple)) := henv.tuple
      rw [meaning_call, hname, TypeExpr.conversion?, if_neg (by simp [hshort]), Expr.meaning,
        meanings_typeConverters (fun t ht f hf => ih t ht hf) hts]
      cases conversions? env ts <;> rfl

/-! ## Contributions -/

/-- The bindings of the arms that stand for contributions. -/
def IsContent (b : Bindings) (v : Value) : Prop :=
  (∀ key ∈ b.keys, key = contentName ∨ key = tailName) ∧ b.get? contentName = some v

section

variable {b : Bindings} {v : Value}

theorem IsContent.isStandard_push (hb : IsContent b v) (h : env.IsStandard) :
    (env.push b).IsStandard := by
  refine h.push fun key hk => ?_
  rcases hb.1 key hk with rfl | rfl
  · exact isWordName_contentName
  · exact isWordName_tailName

/-- The variables of the arms do not hide converters. -/
theorem IsContent.conversion?_push (hb : IsContent b v) (t : TypeExpr) :
    t.conversion? (env.push b) = t.conversion? env := by
  refine t.conversion?_congr fun n => Environment.get?_push_of_notMem fun hk => ?_
  have hlen := Converter.length_name n
  rcases hb.1 _ hk with h | h <;> rw [h] at hlen <;> exact absurd hlen (by decide)

theorem IsContent.meaning_content (hb : IsContent b v) :
    (Expr.identifier contentName l).meaning (env.push b) = some v := by
  show (env.push b).get? contentName = some v
  have h : List.lookup contentName b = some v := hb.2
  simp [Environment.get?, Environment.push, Table.get?, h]

end

/-- The code of a contribution means `c`: a value, nothing, or, if it is none, neither. An option is
looked into, and what is around its content is only evaluated if there is one. -/
def Omittable.Denotes (env : Environment) (item : Omittable)
    (c : Option (Option Value)) : Prop :=
  match item with
  | present e => c = (e.meaning env).map some
  | absent => c = some none
  | optional _ e wrap => ∃ w : Value → Option Value,
      (∀ l b v, IsContent b v →
        (wrap (.identifier contentName l)).meaning (env.push b) = w v) ∧
      c = (e.meaning env).bind fun v => match v.content? with
        | some v => (w v).map some
        | none => some none

/-- The converter of a kind of constants. -/
theorem meaning_constantConverter (h : env.IsStandard) (k : LiteralKind) (x : Expr)
    (l' : Option Location) :
    (Expr.call (.identifier ("Conv.sexp_of_" ++ k.name) l') [x] l).meaning env =
      (x.meaning env).bind k.scalar.converted? := by
  have hname : (Expr.identifier ("Conv.sexp_of_" ++ k.name) l').meaning env =
      some (.builtin (.scalar k.scalar)) := h.constant k
  rw [meaning_call, hname]
  rfl

theorem meaning_stringConverter (h : env.IsStandard) (x : Expr) (l' : Option Location) :
    (Expr.call (.identifier "Conv.sexp_of_string" l') [x] l).meaning env =
      (x.meaning env).bind Scalar.string.converted? :=
  meaning_constantConverter h .string x l'

theorem contributed_text {e : Expr} (hc : ∀ c, e ≠ .constant c)
    (ht : ∀ e' t l, e ≠ .constraint e' t l) (v : Value) :
    e.contributed env v = (Scalar.string.converted? v).map some := by
  unfold Expr.contributed
  split
  · exact absurd rfl (hc _)
  · exact absurd rfl (ht _ _ _)
  · cases Scalar.string.converted? v <;> rfl

theorem contributed_annotated {e : Expr} {t : TypeExpr} {l : Option Location}
    (ho : t.optional? = none) (v : Value) :
    (Expr.constraint e t l).contributed env v =
      ((t.conversion? env).bind fun g => g.call? v).map some := by
  simp only [Expr.contributed, ho]
  cases t.conversion? env with
  | none => rfl
  | some g =>
    simp only [Option.bind_eq_bind, Option.bind_some]
    cases g.call? v <;> rfl

theorem contributed_optional {e : Expr} {t : TypeExpr} {l l' : Option Location} (v : Value) :
    (Expr.constraint e (.named Converter.optionType [t] l') l).contributed env v =
      match v.content? with
      | some v => ((t.conversion? env).bind fun g => g.call? v).map some
      | none => some none := by
  have hopt : (TypeExpr.named Converter.optionType [t] l').optional? = some t := rfl
  simp only [Expr.contributed, hopt]
  cases v.content? with
  | none => rfl
  | some v =>
    cases t.conversion? env with
    | none => rfl
    | some g =>
      simp only [Option.bind_eq_bind, Option.bind_some]
      cases g.call? v <;> rfl

/-- The code of what an expression contributes means that. -/
theorem Expr.Contributes.denotes (henv : env.IsStandard) {e : Expr} {item : Omittable}
    (h : e.Contributes item) (he : e.IsReadable) :
    item.Denotes env ((e.meaning env).bind (e.contributed env)) := by
  cases h with
  | @here l =>
    show _ = Option.map some _
    rw [meaning_stringConverter henv]
    rfl
  | @empty c hempty =>
    show (some c.value).bind _ = some none
    simp [Expr.contributed, hempty]
  | @constant c k hempty hk =>
    show (some c.value).bind _ = Option.map some _
    rw [meaning_constantConverter henv]
    simp only [Expr.contributed, hempty, hk, Option.bind_some, Expr.meaning]
    cases hr : k.scalar.converted? c.value <;> simp [hr]
  | @optional e f t l l' hf =>
    have ht : t.IsReadable := by
      cases he with
      | constraint _ ht =>
        cases ht with
        | applied _ ht => exact ht
    refine ⟨fun v => (t.conversion? env).bind fun g => g.call? v, fun l b v hb => ?_, ?_⟩
    · rw [meaning_call, ht.meaning_converter (hb.isStandard_push henv) hf, hb.conversion?_push,
        hb.meaning_content]
      rfl
    · exact congrArg (e.meaning env).bind (funext contributed_optional)
  | @annotated e f t l ho hf =>
    have ht : t.IsReadable := by
      cases he with
      | constraint _ ht => exact ht
    show (e.meaning env).bind _ = Option.map some _
    rw [meaning_call, ht.meaning_converter henv hf]
    rw [funext (contributed_annotated ho)]
    show (e.meaning env).bind _ = _
    cases e.meaning env with
    | none => cases t.conversion? env <;> rfl
    | some v => rfl
  | text hc ht _ =>
    show _ = Option.map some _
    rw [meaning_stringConverter henv, funext (contributed_text hc ht)]
    cases e.meaning env <;> rfl

/-- A contribution behind its tag, if it has one. -/
def tagged? (tag? : Option (Option Location × String)) (c : Option Value) :
    Option (Option Value) :=
  match c with
  | some v => (behindTag tag? v).map some
  | none => some none

/-- A tag is put in front of what is contributed. -/
theorem Omittable.Denotes.behind (henv : env.IsStandard) {item : Omittable}
    {c : Option (Option Value)} (h : item.Denotes env c)
    (tag? : Option (Option Location × String)) :
    (item.behind tag?).Denotes env (c.bind (tagged? tag?)) := by
  cases tag? with
  | none =>
    have hid : c.bind (tagged? none) = c := by
      rcases c with _ | _ | v <;> rfl
    rw [hid]
    exact h
  | some t =>
    obtain ⟨l', tag⟩ := t
    cases item with
    | present e =>
      subst h
      show _ = ((Code.tagged l' (some tag) e).meaning env).map some
      rw [meaning_tagged henv]
      cases e.meaning env <;> rfl
    | absent =>
      subst h
      rfl
    | optional l'' e wrap =>
      obtain ⟨w, hw, rfl⟩ := h
      refine ⟨fun v => (w v).bind fun x => Value.sexpList? [.atom tag, x], fun l b v hb => ?_, ?_⟩
      · rw [meaning_tagged (hb.isStandard_push henv), hw l b v hb]
      · cases e.meaning env with
        | none => rfl
        | some v =>
          simp only [Option.bind_some]
          cases v.content? with
          | none => rfl
          | some v =>
            dsimp only
            cases w v <;> rfl

theorem contributed_argument {label : Label} (hl : ∀ name, label ≠ .optional name) (e : Expr)
    (v : Value) :
    Argument.contributed env label e v =
      (e.contributed env v).bind (tagged? (Argument.mk label e).tag?) := by
  cases label with
  | optional name => exact absurd rfl (hl name)
  | positional =>
    unfold Argument.contributed
    rcases e.contributed env v with _ | _ | w
    · rfl
    · rfl
    · simp only [tagged?, Option.bind_some, Option.bind_eq_bind]
      cases behindTag (Argument.mk .positional e).tag? w <;> rfl
  | labelled name =>
    unfold Argument.contributed
    rcases e.contributed env v with _ | _ | w
    · rfl
    · rfl
    · simp only [tagged?, Option.bind_some, Option.bind_eq_bind]
      cases behindTag (Argument.mk (.labelled name) e).tag? w <;> rfl

/-- The code of an argument's contribution means what the argument contributes. -/
theorem Argument.IsReadable.denotes (henv : env.IsStandard) {label : Label} {e : Expr}
    {item : Omittable} (h : (Argument.mk label e).IsReadable)
    (hc : (Argument.mk label e).contribution .standard = .ok item) :
    item.Denotes env ((e.meaning env).bind (Argument.contributed env label e)) := by
  rcases h.contribution_cases with ⟨_, _, -, herr⟩ | ⟨label', e', item', ha, hl, he, hcon, hok⟩
  · cases hc.symm.trans herr
  · cases ha
    cases hc.symm.trans hok
    rw [funext (contributed_argument hl e), ← Option.bind_assoc]
    exact (hcon.denotes henv he).behind henv _

/-! ## Messages -/

/-- The code of contributions means `c`: the list of what they contribute, or nothing. -/
def DenoteAll (env : Environment) : List Omittable → Option (List (Option Value)) → Prop
  | [], c => c = some []
  | item :: items, c => ∃ x xs, item.Denotes env x ∧ DenoteAll env items xs ∧
      c = x.bind fun v => xs.map (v :: ·)

theorem denoteAll_contributions (henv : env.IsStandard) {args : List Argument}
    {items : List Omittable} (h : ∀ a ∈ args, a.IsReadable)
    (hm : args.mapM (·.contribution .standard) = .ok items) :
    DenoteAll env items (contributions env args) := by
  induction args generalizing items with
  | nil =>
    cases hm
    rfl
  | cons a args ih =>
    obtain ⟨item, items', rfl, ha, hargs⟩ := exists_of_mapM_cons hm
    obtain ⟨h₁, h₂⟩ := List.forall_mem_cons.mp h
    cases a with
    | other n => exact absurd h₁.1 id
    | mk label e =>
      refine ⟨_, _, h₁.denotes henv ha, ih h₂ hargs, ?_⟩
      rw [contributions, Option.bind_assoc]
      cases e.meaning env with
      | none => rfl
      | some v =>
        simp only [Option.bind_some, Option.bind_eq_bind]
        cases Argument.contributed env label e v with
        | none => rfl
        | some c => cases contributions env args <;> rfl

/-- A value in front of those behind it, if there is one. -/
def inFront (x : Option Value) (vs : List Value) : List Value :=
  match x with
  | some v => v :: vs
  | none => vs

theorem filterMap_cons_id (x : Option Value) (xs : List (Option Value)) :
    (x :: xs).filterMap id = inFront x (xs.filterMap id) := by
  cases x <;> rfl

/-- An item in front of a list. -/
theorem meaning_prepend {head tail : Expr} {vs : Option (List Value)}
    (ht : tail.meaning env = vs.map Value.list) :
    (Code.prepend l head tail).meaning env =
      (head.meaning env).bind fun v => vs.map fun vs => .list (v :: vs) := by
  unfold Code.prepend
  split
  · rename_i es l'
    have hes : meanings env es = vs := by
      have hlist : (meanings env es).map Value.list = vs.map Value.list := by
        rw [← ht, Expr.meaning]
        cases meanings env es <;> rfl
      cases hm : meanings env es <;> rw [hm] at hlist <;> cases vs <;> cases hlist <;> rfl
    rw [Expr.meaning, meanings, hes]
    cases head.meaning env with
    | none => rfl
    | some v => cases vs <;> rfl
  · rw [Expr.meaning, ht]
    cases head.meaning env with
    | none => rfl
    | some v => cases vs <;> rfl

/-- The pattern of an empty option in front of a list. -/
def emptyPattern : Pattern := .tuple [.variant "None" none none, .var tailName none] none

/-- The pattern of a full option in front of a list. -/
def fullPattern : Pattern :=
  .tuple [.variant "Some" (some (.var contentName none)) none, .var tailName none] none

section

variable {v w t : Value}

theorem match_emptyPattern (h : v.content? = none) :
    emptyPattern.match (.tuple [v, t]) [] = .ok (true, [(tailName, t)]) := by
  cases v with
  | none => rfl
  | _ => cases h

theorem not_match_emptyPattern (h : v.content? = some w) :
    emptyPattern.match (.tuple [v, t]) [] = .ok (false, []) := by
  cases v with
  | none => cases h
  | _ => rfl

theorem match_fullPattern (h : v.content? = some w) :
    fullPattern.match (.tuple [v, t]) [] = .ok (true, [(contentName, w), (tailName, t)]) := by
  cases v with
  | none => cases h
  | _ =>
    cases h
    rfl

theorem isContent_full : IsContent [(contentName, w), (tailName, t)] w :=
  ⟨by simp [Table.keys], rfl⟩

end

/-- The arms for an option in front of a list. -/
theorem meaning_arms {wrap : Expr → Expr} {w : Value → Option Value} (v : Value)
    (vs : List Value)
    (hw : ∀ l b v, IsContent b v →
      (wrap (.identifier contentName l)).meaning (env.push b) = w v) :
    meaningOfArms env (.tuple [v, .list vs])
        [.mk emptyPattern (.identifier tailName l) l,
          .mk fullPattern (.cons (wrap (.identifier contentName l)) (.identifier tailName l) l) l] =
      match v.content? with
      | some v => (w v).map fun x => .list (x :: vs)
      | none => some (.list vs) := by
  cases hv : v.content? with
  | none =>
    rw [meaningOfArms, match_emptyPattern hv]
    rfl
  | some u =>
    have htail : (Expr.identifier tailName l).meaning
        (env.push [(contentName, u), (tailName, .list vs)]) = some (.list vs) := rfl
    rw [meaningOfArms, not_match_emptyPattern hv]
    dsimp only
    rw [meaningOfArms, match_fullPattern hv]
    dsimp only
    rw [Expr.meaning, hw l _ u isContent_full, htail]
    cases w u <;> rfl

/-- A contribution in front of a list. -/
theorem Omittable.Denotes.meaning_onto {item : Omittable} {tail : Expr}
    {c : Option (Option Value)} {vs : Option (List Value)} (h : item.Denotes env c)
    (ht : tail.meaning env = vs.map Value.list) :
    (item.onto l tail).meaning env =
      c.bind fun x => vs.map fun vs => .list (inFront x vs) := by
  cases item with
  | present e =>
    subst h
    rw [onto, meaning_prepend ht]
    cases e.meaning env <;> rfl
  | absent =>
    subst h
    rw [onto, ht]
    cases vs <;> rfl
  | optional l' e wrap =>
    obtain ⟨w, hw, rfl⟩ := h
    have harms := fun v vs => meaning_arms (l := l) v vs hw
    rw [onto, Expr.meaning, Expr.meaning, meanings, meanings, meanings, ht]
    cases e.meaning env with
    | none => rfl
    | some v =>
      cases vs with
      | none => exact (Option.bind_fun_none _).symm
      | some vs =>
        refine (harms v vs).trans ?_
        simp only [Option.bind_some]
        cases v.content? with
        | none => rfl
        | some u =>
          dsimp only
          cases w u <;> rfl

/-- The code of all contributions means the list of them. -/
theorem meaning_foldr {items : List Omittable} {cs : Option (List (Option Value))}
    (h : DenoteAll env items cs) :
    (items.foldr (fun item tail => onto l tail item) (Expr.list [] l)).meaning env =
      (cs.map (·.filterMap id)).map Value.list := by
  induction items generalizing cs with
  | nil =>
    cases h
    rfl
  | cons item items ih =>
    obtain ⟨x, xs, hx, hxs, rfl⟩ := h
    rw [List.foldr_cons, hx.meaning_onto (ih hxs)]
    cases x with
    | none => rfl
    | some x =>
      cases xs with
      | none => rfl
      | some xs => simp only [Option.bind_some, Option.map_some, filterMap_cons_id]

/-- A single item stands for itself, any other list for the S-expression list. -/
def single? (vs : List Value) : Option Value :=
  match vs with
  | [v] => some v
  | vs => Value.sexpList? vs

/-- Whether there is a single item can be seen from the list of them. -/
theorem meaning_collapse (henv : env.IsStandard) {e : Expr} {vs : Option (List Value)}
    (he : e.meaning env = vs.map Value.list) :
    (collapse l e).meaning env = vs.bind single? := by
  have hmany : ∀ vs, (Code.list l (.identifier resultName l)).meaning
      (env.push [(resultName, .list vs)]) = Value.sexpList? vs := by
    intro vs
    have hpush : (env.push [(resultName, .list vs)]).IsStandard := by
      refine henv.push fun key hk => ?_
      rw [List.mem_singleton.mp hk]
      exact isWordName_resultName
    have hres : (Expr.identifier resultName l).meaning (env.push [(resultName, .list vs)]) =
        (some vs).map Value.list := rfl
    exact meaning_codeList hpush hres
  rw [collapse, Expr.meaning, he]
  rcases vs with _ | _ | ⟨v, _ | ⟨w, vs⟩⟩
  · rfl
  · exact hmany []
  · rfl
  · exact hmany (v :: w :: vs)

theorem exists_foldr_eq_list {items : List Omittable} (h : items.any isOptional = false) :
    ∃ es l', items.foldr (fun item tail => item.onto l tail) (.list [] l) = .list es l' := by
  induction items with
  | nil => exact ⟨[], l, rfl⟩
  | cons item items ih =>
    rw [List.any_cons, Bool.or_eq_false_iff] at h
    obtain ⟨es, l', he⟩ := ih h.2
    rw [List.foldr_cons, he]
    cases item with
    | present e => exact ⟨e :: es, l, rfl⟩
    | optional => cases h.1
    | absent => exact ⟨es, l', rfl⟩

theorem length_of_meanings {es : List Expr} {vs : List Value} (h : meanings env es = some vs) :
    vs.length = es.length := by
  induction es generalizing vs with
  | nil =>
    cases h
    rfl
  | cons e es ih =>
    rw [meanings] at h
    cases he : e.meaning env with
    | none =>
      rw [he] at h
      cases h
    | some v =>
      cases hes : meanings env es with
      | none =>
        rw [he, hes] at h
        cases h
      | some vs' =>
        rw [he, hes] at h
        cases h
        rw [List.length_cons, List.length_cons, ih hes]

/-- The code of contributions means the message. -/
theorem meaning_assemble (henv : env.IsStandard) {items : List Omittable}
    {cs : Option (List (Option Value))} (h : DenoteAll env items cs) :
    (assemble l items).meaning env = cs.bind Message.value? := by
  -- a list of one collapses when the code runs if there are options, and at once if there are none
  have hfold := meaning_foldr (l := l) h
  have hvalue : cs.bind Message.value? = (cs.map (·.filterMap id)).bind single? := by
    cases cs <;> rfl
  rw [hvalue]
  unfold assemble
  dsimp only
  split
  · exact meaning_collapse henv hfold
  · rename_i hany
    obtain ⟨es, l', he⟩ := exists_foldr_eq_list (l := l) (Bool.eq_false_iff.mpr hany)
    rw [he] at hfold ⊢
    have hes : meanings env es = cs.map (·.filterMap id) := by
      rw [Expr.meaning] at hfold
      generalize cs.map (·.filterMap id) = vs at hfold
      cases hm : meanings env es <;> rw [hm] at hfold <;> cases vs <;> cases hfold <;> rfl
    rw [← hes]
    split
    · rename_i item l'' heq
      cases heq
      rw [meanings, meanings]
      cases item.meaning env <;> rfl
    · rename_i hsingle
      have hlist : (Expr.list es l').meaning env = (meanings env es).map Value.list := by
        rw [Expr.meaning]
        cases meanings env es <;> rfl
      rw [meaning_codeList henv hlist]
      cases hm : meanings env es with
      | none => rfl
      | some vs =>
        have hlen := length_of_meanings hm
        rcases vs with _ | ⟨v, _ | ⟨w, vs⟩⟩
        · rfl
        · obtain ⟨e, rfl⟩ := List.length_eq_one_iff.mp hlen.symm
          exact absurd rfl (hsingle e l')
        · rfl

end

/-! ## Extensions -/

section

variable {env : Environment} {l : Option Location}

/-- The payload of a message is what its arguments are. -/
theorem meaning_message (e : Expr) :
    (Expr.extension "message" (some e) l).meaning env =
      (contributions env (Message.arguments e)).bind Message.value? := by
  cases hf : e.isApply with
  | false =>
    have harguments : Message.arguments e = [.mk .positional e] := by
      cases e <;> first | rfl | cases hf
    have hmeaning : (Expr.extension "message" (some e) l).meaning env =
        (e.meaning env).bind fun v =>
          (Argument.contributed env .positional e v).bind fun c => Message.value? [c] := by
      cases e <;> first | rfl | cases hf
    rw [harguments, hmeaning, contributions, contributions]
    cases e.meaning env with
    | none => rfl
    | some v => cases hc : Argument.contributed env .positional e v <;> simp [hc]
  | true =>
    cases e with
    | apply f args l' =>
      rw [Expr.meaning, Message.arguments, contributions, if_pos (beq_self_eq_true _)]
      cases f.meaning env with
      | none => rfl
      | some v =>
        cases hc : Argument.contributed env .positional f v with
        | none => simp [hc]
        | some c => cases contributions env args <;> simp [hc]
    | _ => cases hf

/-- What the code of an extension means is what the extension means. -/
theorem meaning_expand (henv : env.IsStandard) {name : String} {payload : Option Expr}
    {x : ExtensionPoint} (hx : Registry.standard.find? name = some x)
    (h : (Expr.extension name payload l).IsReadable) {code : Expr}
    (hcode : x.expand .standard l payload = .ok code) :
    code.meaning env = (Expr.extension name payload l).meaning env := by
  rcases Registry.find?_standard hx with ⟨rfl, rfl⟩ | ⟨rfl, rfl⟩
  · have hcode : Message.expand .standard l payload = .ok code := hcode
    cases payload with
    | none =>
      cases hcode
      have hlist : (Expr.list [] l).meaning env = (some []).map Value.list := rfl
      exact meaning_codeList henv hlist
    | some e =>
      have he : e.IsReadable := by
        cases h with
        | payload _ he => exact he
      simp only [Message.expand, Message.assemble] at hcode
      cases hm : (Message.arguments e).mapM (Argument.contribution .standard) with
      | error err =>
        rw [hm] at hcode
        cases hcode
      | ok items =>
        rw [hm] at hcode
        cases hcode
        rw [meaning_message]
        exact meaning_assemble henv
          (denoteAll_contributions henv (isReadable_arguments he) hm)
  · cases h with
    | extension =>
      cases hcode
      rfl
    | payload => cases hcode

end
end MessageLang
