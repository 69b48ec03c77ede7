import MessageLang.Proofs.Expansion.Relocation
import MessageLang.Proofs.Expansion.SourceOrder
import MessageLang.Proofs.Grammar.Moving
import MessageLang.Proofs.Source.Snippets
/-!
# Where the parts of a tree start

A part of a tree that was read starts where a token starts. For if only the places are moved where
no token starts, the tokens stay as they are, and with them the one tree that they derive: so all of
its places are among those that stay.

* `Lexes.standsIn`: the tokens of a text start at characters of it.
* `Derives.relocate_eq_self`: the parts of a tree stay as they are if its tokens do.
* `Expr.IsReadable.exists_first`: so they start where tokens start.
-/
namespace MessageLang

/-! ## The places of tokens -/

/-- A token starts at a character of a text that is no line feed, and ends at a place of it. -/
structure Token.StandsIn (text : List Char) (t : Token) : Prop where
  first : t.first.IsMarkable text
  last : ∃ j, t.last = positionAt text j

section

variable {file : String} {s s' : State} {p p' : Position} {text cs rest : List Char}
  {ts : List Token}

/-- A lexeme at an offset starts with a character there. -/
theorem Terminal.IsLexeme.exists_getElem? {k : Terminal} {w pre : List Char} (h : k.IsLexeme w) :
    ∃ c, (pre ++ (w ++ rest))[pre.length]? = some c ∧ c ≠ '\n' := by
  obtain ⟨c, v, rfl⟩ := List.exists_cons_of_ne_nil h.ne_nil
  refine ⟨c, by simp, ?_⟩
  rintro rfl
  have := h.isBlank_head
  cases this

theorem Lexes.standsIn (h : Lexes file s p cs ts s' p' rest) (pre : List Char)
    (htext : text = pre ++ cs) (hp : p = positionAt text pre.length) :
    ∀ t ∈ ts, t.StandsIn text := by
  have hlexemes := h.areLexemes
  induction h generalizing pre with
  | nil => exact fun t ht => absurd ht List.not_mem_nil
  | @layout _ _ w _ _ _ _ _ _ _ _ _ _ ih =>
    refine ih (pre ++ w) (by rw [htext, List.append_assoc]) ?_ hlexemes
    rw [hp, htext, ← List.append_assoc, advance_positionAt, List.length_append]
  | @token _ _ p w _ _ _ _ _ _ _ _ _ _ _ ih =>
    obtain ⟨hw, hts⟩ := List.forall_mem_cons.mp hlexemes
    have hlast : p.advance w = positionAt text (pre ++ w).length := by
      rw [hp, htext, ← List.append_assoc, advance_positionAt, List.length_append]
    obtain ⟨c, hc, hne⟩ := hw.exists_getElem?
    refine List.forall_mem_cons.mpr ⟨⟨⟨pre.length, c, hp, ?_, hne⟩, _, hlast⟩, ?_⟩
    · rw [htext]
      exact hc
    · exact ih (pre ++ w) (by rw [htext, List.append_assoc]) hlast hts

end

/-! ## Trees that stay -/

section

variable {f : Location → Location}

/-- The parts of a tree that stays as it is do so, too. -/
theorem Expr.IsReadable.all_relocate_eq_self {e : Expr} (h : e.IsReadable)
    (he : e.relocate f = e) : e.All fun x => x.relocate f = x := by
  have hself {α : Type} {g : α → α} {as : List α} (h : as.map g = as) : ∀ a ∈ as, g a = a :=
    List.map_inj_left.mp (h.trans (List.map_id as).symm)
  induction h with
  | constant | identifier | unit | extension => exact List.forall_mem_singleton.mpr he
  | apply _ _ hl _ ihf iha =>
    have hparts := he
    rw [Expr.relocate, relocateArguments_eq_map, Expr.apply.injEq] at hparts
    refine all_apply.mpr ⟨he, ihf hparts.1, fun a hm => ?_⟩
    have ha := hself hparts.2.1 a hm
    cases a with
    | mk label e =>
      rw [Argument.relocate, Argument.mk.injEq] at ha
      exact iha label e hm ha.2
    | other n => exact absurd (hl _ hm) id
  | constraint _ _ ih =>
    have hparts := he
    rw [Expr.relocate, Expr.constraint.injEq] at hparts
    exact all_constraint.mpr ⟨he, ih hparts.1⟩
  | payload _ _ ih =>
    have hparts := he
    rw [Expr.relocate, Expr.extension.injEq, Option.some.injEq] at hparts
    exact all_extension.mpr ⟨he, ih hparts.2.1⟩
  | tuple _ _ ih =>
    have hparts := he
    rw [Expr.relocate, relocateExprs_eq_map, Expr.tuple.injEq] at hparts
    exact all_tuple.mpr ⟨he, fun e hm => ih e hm (hself hparts.1 e hm)⟩
  | list _ ih =>
    have hparts := he
    rw [Expr.relocate, relocateExprs_eq_map, Expr.list.injEq] at hparts
    exact all_list.mpr ⟨he, fun e hm => ih e hm (hself hparts.1 e hm)⟩
  | binary _ _ ihl ihr =>
    have hparts := he
    rw [Expr.relocate, Expr.binary.injEq] at hparts
    exact all_binary.mpr ⟨he, ihl hparts.1, ihr hparts.2.2.1⟩

variable {file : String} {ts : List Token} {p : Program} {bad : List BadLiteral}

/-- A tree stays as it is if the tokens that derive it do. -/
theorem Derives.map_relocate_eq_self {mf ml : Position → Position}
    (h : Derives file (.program p) ts bad)
    (hts : ∀ t ∈ ts, mf t.first = t.first ∧ ml t.last = t.last) :
    p.statements.map (Statement.relocate (Location.move mf ml)) = p.statements := by
  have htokens : ts.map (Token.move mf ml) = ts := by
    refine (List.map_congr_left fun t ht => ?_).trans (List.map_id ts)
    obtain ⟨hf, hl⟩ := hts t ht
    rw [Token.move, hf, hl]
    rfl
  have hmoved := h.move fun p q => Location.move_between p q mf ml
  rw [htokens] at hmoved
  exact congrArg Program.statements (hmoved.unique h)

/-- A place that is none of `ps` is moved on. -/
def Position.keep (ps : List Position) (q : Position) : Position :=
  if q ∈ ps then q else q.next ' '

theorem Position.mem_of_keep_eq_self {ps : List Position} {q : Position} (h : q.keep ps = q) :
    q ∈ ps := by
  by_cases hq : q ∈ ps
  · exact hq
  · rw [keep, if_neg hq] at h
    have hoffset : q.offset + 1 = q.offset := congrArg Position.offset h
    omega

/-- A region is moved on at its start if none of the tokens starts there. -/
def Location.keep (ts : List Token) : Location → Location :=
  .move (Position.keep (ts.map Token.first)) id

/-- The parts of a tree that was read stay as they are if only what is at no token is moved. -/
theorem Derives.relocate_eq_self (h : Derives file (.program p) ts bad) (hr : p.IsReadable) :
    ∀ x ∈ p.parts, x.relocate (Location.keep ts) = x := by
  have hfixed : p.statements.map (Statement.relocate (Location.keep ts)) = p.statements :=
    h.map_relocate_eq_self fun t ht => ⟨if_pos (List.mem_map_of_mem ht), rfl⟩
  intro x hx
  obtain ⟨s, hs, hx⟩ := mem_partsOfStatements.mp hx
  have hs' := List.map_inj_left.mp (hfixed.trans (List.map_id _).symm) s hs
  cases hr s hs with
  | binding _ he =>
    rw [Statement.relocate, id, Statement.binding.injEq] at hs'
    exact he.all_relocate_eq_self hs'.2.1 x hx
  | expression he =>
    rw [Statement.relocate, id, Statement.expression.injEq] at hs'
    exact he.all_relocate_eq_self hs'.1 x hx

/-- What stays so starts where a token starts. -/
theorem Expr.IsReadable.exists_first {e : Expr} (h : e.IsReadable)
    (hself : e.relocate (Location.keep ts) = e) {l : Location} (hl : e.location = some l) :
    ∃ t ∈ ts, t.first = l.first := by
  have hlocation := h.location_relocate (f := Location.keep ts)
  rw [hself, hl, Option.map_some, Option.some.injEq] at hlocation
  have hfirst : l.first = l.first.keep (ts.map Token.first) := congrArg Location.first hlocation
  exact List.mem_map.mp (Position.mem_of_keep_eq_self hfirst.symm)

/-- The arguments of a payload that stays as it is do so, too. -/
theorem Message.relocate_eq_self_of_mem_arguments {payload e : Expr} {label : Label}
    (h : payload.relocate f = payload) (ha : .mk label e ∈ arguments payload) :
    e.relocate f = e := by
  have hargs : (arguments payload).map (Argument.relocate f) = arguments payload := by
    rw [← arguments_relocate, h]
  have harg := List.map_inj_left.mp (hargs.trans (List.map_id _).symm) _ ha
  rw [Argument.relocate, id, Argument.mk.injEq] at harg
  exact harg.2

end
end MessageLang
