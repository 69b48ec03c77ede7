import MessageLang.Proofs.Meaning.Expansion
/-!
# Messages are S-expressions

The list that a message is made of is checked to hold S-expressions only, but a single item stands
for itself and is not looked at. What an argument contributes is an S-expression, whatever its
shape, unless its label is `_` and the converter of its annotation returns something else.

* `Builtin.isConversion`: the built-in functions that return S-expressions only.
* `Value.isSexp_or_of_call?`: what the values that can be called return.
* `Argument.isSexp_or_of_contributed`: what arguments contribute.
* `Message.isSexp_or_of_value?`: a message is a list of S-expressions, or the one thing that is
  contributed.
* `Message.IsUnchecked`, `message_isSexp_or`: the value of a message.
* `message_not_isSexp`: a message whose value is no S-expression.
-/
namespace MessageLang

/-- Whether the values that a built-in function returns are all S-expressions. A converter of a
family that is called with the converter of the parts is a function still. -/
def Builtin.isConversion : Builtin → Bool
  | makeAtom | makeList | sexp | scalar _ => true
  | some | intText | floatText | family _ => false

/-! ## Calls -/

/-- A call whose result, if there is one, is made an S-expression. -/
theorem isSexp_of_map {α : Type} {x : Except CallFault α} {f : α → Value} {w : Value}
    (hf : ∀ a, (f a).isSexp = true) (h : (do return f (← x)) = Except.ok w) : w.isSexp = true := by
  cases x with
  | error fault => cases h
  | ok a =>
    cases h
    exact hf a

theorem Scalar.isSexp_of_convert {type : Scalar} {v w : Value} (h : type.convert v = .ok w) :
    w.isSexp = true := by
  unfold Scalar.convert at h
  split at h
  · exact isSexp_of_map (fun _ => rfl) h
  · exact isSexp_of_map (fun _ => rfl) h
  · split at h <;> cases h
    rfl
  all_goals first | (cases h; rfl) | cases h

theorem Builtin.isSexp_of_call {b : Builtin} (hb : b.isConversion = true) {v w : Value}
    (h : b.call v = .ok w) : w.isSexp = true := by
  unfold Builtin.call at h
  split at h
  · split at h <;> cases h
    rfl
  · split at h
    · split at h <;> cases h
      rfl
    · cases h
  · split at h
    · cases h
      assumption
    · cases h
  · cases hb
  · cases hb
  · cases hb
  · exact Scalar.isSexp_of_convert h
  · cases hb

theorem Value.isSexp_of_call_converter {type : Family} {parts v w : Value}
    (h : (Value.converter type parts).call v = .ok w) : w.isSexp = true := by
  unfold Value.call at h
  split at h
  · rename_i heq
    cases heq
  · split at h
    · exact isSexp_of_map (fun _ => rfl) h
    · cases h
  · split at h
    · exact isSexp_of_map (fun _ => rfl) h
    · cases h
  · split at h
    · cases h
      rfl
    · exact isSexp_of_map (fun _ => rfl) h
  · split at h
    · exact isSexp_of_map (fun _ => rfl) h
    · cases h
  · split at h
    · exact isSexp_of_map (fun _ => rfl) h
    · cases h
  · split at h
    · cases h
    · split at h
      · cases h
      · split at h <;> cases h
        rfl
  · cases h

/-- What a value returns that can be called: an S-expression, or what one of the built-in functions
returns that are no conversions. -/
theorem Value.isSexp_or_of_call? {g v w : Value} (h : g.call? v = some w) :
    w.isSexp = true ∨ ∃ b, g = .builtin b ∧ b.isConversion = false ∧ b.call v = .ok w := by
  have hcall : g.isFunction = true ∧ g.call v = .ok w := by
    unfold Value.call? at h
    split at h
    · rename_i hf
      cases hg : g.call v with
      | error fault =>
        rw [hg] at h
        cases h
      | ok w' =>
        rw [hg] at h
        cases h
        exact ⟨hf, rfl⟩
    · cases h
  obtain ⟨hf, hcall⟩ := hcall
  cases g with
  | builtin b =>
    rw [Value.call] at hcall
    cases hb : b.isConversion with
    | false => exact .inr ⟨b, rfl, hb, hcall⟩
    | true => exact .inl (Builtin.isSexp_of_call hb hcall)
  | converter type parts => exact .inl (Value.isSexp_of_call_converter hcall)
  | _ => cases hf

/-! ## Contributions -/

theorem Scalar.isSexp_of_converted? {type : Scalar} {v w : Value}
    (h : type.converted? v = some w) : w.isSexp = true := by
  unfold Scalar.converted? at h
  cases hc : type.convert v with
  | error fault =>
    rw [hc] at h
    cases h
  | ok w' =>
    rw [hc] at h
    cases h
    exact Scalar.isSexp_of_convert hc

theorem Value.isSexp_of_sexpList? {vs : List Value} {w : Value} (h : Value.sexpList? vs = some w) :
    w.isSexp = true := by
  unfold Value.sexpList? at h
  split at h
  · cases h
    rfl
  · cases h

/-- What an option holds is the option itself, seen as a value. -/
theorem Value.eq_of_content? {v w : Value} (h : v.content? = some w) : w = v := by
  cases v <;> cases h <;> rfl

/-- What an expression contributes is an S-expression, or what the converter of its annotation
returns. -/
theorem Expr.isSexp_or_of_contributed {env : Environment} {e : Expr} {v w : Value}
    (h : e.contributed env v = some (some w)) :
    w.isSexp = true ∨ ∃ e' t l b, e = .constraint e' t l ∧
      (t.optional?.getD t).conversion? env = some (.builtin b) ∧ b.isConversion = false ∧
        b.call v = .ok w := by
  have hconverted {t : TypeExpr} (h : ((t.conversion? env).bind fun g => g.call? v).map some =
      some (some w)) : w.isSexp = true ∨ ∃ b, t.conversion? env = some (.builtin b) ∧
        b.isConversion = false ∧ b.call v = .ok w := by
    rw [Option.map_eq_some_iff] at h
    obtain ⟨w', h, heq⟩ := h
    cases heq
    obtain ⟨g, hg, hcall⟩ := Option.bind_eq_some_iff.mp h
    rcases Value.isSexp_or_of_call? hcall with hw | ⟨b, rfl, hb⟩
    · exact .inl hw
    · exact .inr ⟨b, hg, hb⟩
  by_cases hc : ∃ c, e = .constant c
  · obtain ⟨c, rfl⟩ := hc
    simp only [Expr.contributed] at h
    split at h
    · cases h
    · simp only [Option.bind_eq_bind, Option.bind_eq_some_iff] at h
      obtain ⟨k, -, w', hw', heq⟩ := h
      cases heq
      exact .inl (Scalar.isSexp_of_converted? hw')
  by_cases ht : ∃ e' t l, e = .constraint e' t l
  · obtain ⟨e', t, l, rfl⟩ := ht
    cases ho : t.optional? with
    | none =>
      rw [contributed_annotated ho] at h
      rcases hconverted h with hw | ⟨b, hg, hb⟩
      · exact .inl hw
      · exact .inr ⟨e', t, l, b, rfl, by rw [ho]; exact hg, hb⟩
    | some u =>
      obtain ⟨l', rfl⟩ := TypeExpr.exists_of_optional? ho
      rw [contributed_optional] at h
      split at h
      · rename_i u hcontent
        rw [Value.eq_of_content? hcontent] at h
        rcases hconverted h with hw | ⟨b, hg, hb⟩
        · exact .inl hw
        · exact .inr ⟨e', _, l, b, rfl, by rw [ho]; exact hg, hb⟩
      · cases h
  · rw [contributed_text (fun c he => hc ⟨c, he⟩) fun e' t l he => ht ⟨e', t, l, he⟩,
      Option.map_eq_some_iff] at h
    obtain ⟨w', hw', heq⟩ := h
    cases heq
    exact .inl (Scalar.isSexp_of_converted? hw')

/-- What an argument contributes is an S-expression, unless its label is `_` and the converter of
its annotation returns something else: any other label is a tag, and so is the text of an annotated
expression without a label. -/
theorem Argument.isSexp_or_of_contributed {env : Environment} {label : Label} {e : Expr}
    {v w : Value} (h : Argument.contributed env label e v = some (some w)) :
    w.isSexp = true ∨ ∃ e' t l b, label = .labelled "_" ∧ e = .constraint e' t l ∧
      (t.optional?.getD t).conversion? env = some (.builtin b) ∧ b.isConversion = false ∧
        b.call v = .ok w := by
  have hl : ∀ name, label ≠ .optional name := by
    intro name heq
    subst heq
    cases h
  rw [contributed_argument hl] at h
  obtain ⟨c, hc, htag⟩ := Option.bind_eq_some_iff.mp h
  cases c with
  | none => cases htag
  | some u =>
    rw [tagged?, Option.map_eq_some_iff] at htag
    obtain ⟨w', htag, heq⟩ := htag
    cases heq
    cases ht : (Argument.mk label e).tag? with
    | some tag =>
      rw [ht] at htag
      exact .inl (Value.isSexp_of_sexpList? htag)
    | none =>
      rw [ht] at htag
      cases htag
      rcases Expr.isSexp_or_of_contributed hc with hw | ⟨e', t, l, b, rfl, hg, hb⟩
      · exact .inl hw
      · refine .inr ⟨e', t, l, b, ?_, rfl, hg, hb⟩
        cases label with
        | positional => cases ht
        | optional name => exact absurd rfl (hl name)
        | labelled name =>
          simp only [Argument.tag?] at ht
          split at ht
          · rename_i hn
            rw [beq_iff_eq.mp hn]
          · cases ht

/-! ## Messages -/

/-- What an argument contributes; nothing, if it is absent. -/
def Argument.Contributes (env : Environment) (c : Option Value) : Argument → Prop
  | .mk label e => ∃ v, e.meaning env = some v ∧ Argument.contributed env label e v = some c
  | .other _ => False

section

variable {env : Environment} {args : List Argument} {cs : List (Option Value)} {v : Value}

theorem contributions_cons {a : Argument} (h : contributions env (a :: args) = some cs) :
    ∃ c cs', cs = c :: cs' ∧ a.Contributes env c ∧ contributions env args = some cs' := by
  cases a with
  | other n => cases h
  | mk label e =>
    simp only [contributions, Option.bind_eq_bind, Option.bind_eq_some_iff] at h
    obtain ⟨v, hv, c, hc, cs', hcs', heq⟩ := h
    cases heq
    exact ⟨c, cs', rfl, ⟨v, hv, hc⟩, hcs'⟩

/-- Where nothing is contributed, all arguments are absent. -/
theorem contributes_none_of_contributions (h : contributions env args = some cs)
    (hnone : cs.filterMap id = []) : ∀ a ∈ args, a.Contributes env none := by
  induction args generalizing cs with
  | nil => exact List.forall_mem_nil _
  | cons a args ih =>
    obtain ⟨c, cs', rfl, ha, hargs⟩ := contributions_cons h
    cases c with
    | some w => cases hnone
    | none => exact List.forall_mem_cons.mpr ⟨ha, ih hargs hnone⟩

/-- Where one thing is contributed, one argument contributes it and all others are absent. -/
theorem exists_single_of_contributions (h : contributions env args = some cs)
    (hone : cs.filterMap id = [v]) : ∃ pre a post, args = pre ++ a :: post ∧
      a.Contributes env (some v) ∧ ∀ x ∈ pre ++ post, x.Contributes env none := by
  induction args generalizing cs with
  | nil =>
    cases h
    cases hone
  | cons a args ih =>
    obtain ⟨c, cs', rfl, ha, hargs⟩ := contributions_cons h
    cases c with
    | some w =>
      rw [filterMap_cons_id, inFront, List.cons.injEq] at hone
      obtain ⟨rfl, hnone⟩ := hone
      exact ⟨[], a, args, rfl, ha, contributes_none_of_contributions hargs hnone⟩
    | none =>
      obtain ⟨pre, b, post, rfl, hb, hothers⟩ := ih hargs hone
      exact ⟨a :: pre, b, post, rfl, hb, List.forall_mem_cons.mpr ⟨ha, hothers⟩⟩

/-- The value of a message is an S-expression, or the only value that was contributed. -/
theorem Message.isSexp_or_of_value? (h : Message.value? cs = some v) :
    v.isSexp = true ∨ cs.filterMap id = [v] := by
  unfold Message.value? at h
  split at h
  · rename_i w hw
    cases h
    exact .inr hw
  · exact .inl (Value.isSexp_of_sexpList? h)

end

/-- A value is what comes of the only argument that is present: this has the label `_` and an
annotation that names a built-in function which is no conversion, and the value is what this
function returned. -/
def Message.IsUnchecked (env : Environment) (args : List Argument) (v : Value) : Prop :=
  ∃ pre e t l post w b, args = pre ++ .mk (.labelled "_") (.constraint e t l) :: post ∧
    (∀ a ∈ pre ++ post, a.Contributes env none) ∧ e.meaning env = some w ∧
      (t.optional?.getD t).conversion? env = some (.builtin b) ∧ b.isConversion = false ∧
        b.call w = .ok v

/-- A message means an S-expression, or what a converter returns that is no conversion. -/
theorem Message.isSexp_or_of_meaning {env : Environment} {payload : Option Expr}
    {l : Option Location} {v : Value}
    (h : (Expr.extension "message" payload l).meaning env = some v) :
    v.isSexp = true ∨ Message.IsUnchecked env (Message.payloadArguments payload) v := by
  cases payload with
  | none =>
    cases h
    exact .inl rfl
  | some e =>
    rw [meaning_message] at h
    obtain ⟨cs, hcs, hv⟩ := Option.bind_eq_some_iff.mp h
    rcases Message.isSexp_or_of_value? hv with hv | hone
    · exact .inl hv
    · obtain ⟨pre, ⟨label, x⟩ | n, post, hargs, ha, hothers⟩ :=
        exists_single_of_contributions hcs hone
      · obtain ⟨w, hw, hx⟩ := ha
        rcases Argument.isSexp_or_of_contributed hx with hv | ⟨e', t, l', b, rfl, rfl, hg, hb⟩
        · exact .inl hv
        · exact .inr ⟨pre, e', t, l', post, w, b, hargs, hothers, hw, hg, hb⟩
      · exact ha.elim

/-- The code that a message of a program expands to, however often expansions may follow one
another: where no other values have the names that messages refer to, it evaluates to an
S-expression, or to what the converter of the only argument that is present returned, which is then
a built-in function that is no conversion, such as the converter of a family without its parts. -/
theorem message_isSexp_or {file source : String} {p : Program}
    (hp : Program.parse file source = .ok p) {payload : Option Expr} {l : Option Location}
    (hx : .extension "message" payload l ∈ p.parts) {depth : Nat}
    (hf : ((Expr.extension "message" payload l).expandWith .standard depth).failures = [])
    {env env' : Environment} (henv : env.IsStandard) {v : Value}
    (hv : ((Expr.extension "message" payload l).expandWith .standard depth).value.eval env =
      .ok v env') :
    v.isSexp = true ∨ Message.IsUnchecked env (Message.payloadArguments payload) v := by
  have hreadable := (Program.parse_isReadable hp).of_mem_parts hx
  have hyields := Setting.agrees_siteWithin depth _ _ _ hreadable hf env henv
  cases hm : (Expr.extension "message" payload l).meaning env with
  | none =>
    rw [hm] at hyields
    obtain ⟨failure, env'', herr⟩ := hyields
    cases hv.symm.trans herr
  | some w =>
    rw [hm] at hyields
    cases hv.symm.trans hyields
    exact Message.isSexp_or_of_meaning hm

/-- Whether an expression is a message with a payload. -/
def Expr.isMessage : Expr → Bool
  | .extension name (some _) _ => name == "message"
  | _ => false

/-- A message with another one for its single item. -/
theorem message_isSexp_or_nested : ∃ p e l v env',
    Program.parse "a.ml" "[%message \"\" ~_:([%message \"a\" 1] : Sexp.t)];" = .ok p ∧
      .extension "message" (some e) l ∈ p.parts ∧
      ((Expr.extension "message" (some e) l).expandWith .standard 3).value.eval .initial =
        .ok v env' ∧
      (v.isSexp = true ∨
        Message.IsUnchecked .initial (Message.payloadArguments (some e)) v) := by
  have hcheck : ((Program.parse "a.ml"
      "[%message \"\" ~_:([%message \"a\" 1] : Sexp.t)];").toOption.any fun p =>
        p.parts.any fun x => x.isMessage && (x.expandWith .standard 3).failures.isEmpty &&
          ((x.expandWith .standard 3).value.eval.outcome .initial).1.toOption.isSome) = true := by
    decide +kernel
  obtain ⟨p, hp, hany⟩ := exists_ok_of_any hcheck
  obtain ⟨x, hmem, hruns⟩ := List.any_eq_true.mp hany
  rw [Bool.and_eq_true, Bool.and_eq_true, List.isEmpty_iff] at hruns
  obtain ⟨⟨hmessage, hf⟩, hok⟩ := hruns
  unfold Expr.isMessage at hmessage
  split at hmessage
  · rename_i name e l
    cases eq_of_beq hmessage
    unfold Evaluating.outcome at hok
    split at hok
    · rename_i v env' hv
      exact ⟨p, e, l, v, env', hp, hmem, hv,
        message_isSexp_or hp hmem hf Environment.isStandard_initial hv⟩
    · cases hok
  · cases hmessage

/-- The converter of lists takes the converter of the items before it takes a list, and a message
whose single item is annotated with `list` alone is a function. -/
theorem message_not_isSexp : ∃ q v,
    compile .standard "main.sxm" "[%message \"\" ~_:(1 : list)];" = .ok q ∧
      q.execute [] = ⟨.ok v, []⟩ ∧ v.isSexp = false := by
  have hcheck : ((compile .standard "main.sxm"
      "[%message \"\" ~_:(1 : list)];").toOption.any fun q =>
        (q.execute []).outputs.isEmpty &&
          (q.execute []).result.toOption.any fun v => !v.isSexp) = true := by
    decide +kernel
  obtain ⟨q, hq, hruns⟩ := exists_ok_of_any hcheck
  rw [Bool.and_eq_true, List.isEmpty_iff] at hruns
  obtain ⟨houtputs, hresult⟩ := hruns
  obtain ⟨v, hv, hsexp⟩ := exists_ok_of_any hresult
  have hrun : q.execute [] = ⟨(q.execute []).result, (q.execute []).outputs⟩ := rfl
  rw [hv, houtputs] at hrun
  exact ⟨q, v, hq, hrun, by simpa using hsexp⟩

end MessageLang
