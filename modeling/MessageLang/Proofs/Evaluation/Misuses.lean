import MessageLang.Value.Call
/-!
# Misused converters

A converter checks the value that it is given, but neither that its parts are functions nor that an
integer fits into a double. `Value.Misuses f v d` says where in the calls that `f` makes on the parts
of `v` this matters: at the first part that is not converted.

* `Value.innerCalls`: the calls that a converter makes, in their order.
* `Value.converts`: a converter refuses its value, has no converters for its parts, or calls them.
* `Value.call_eq_defect_iff`: a call ends in a defect exactly where it is a misuse.
-/
namespace MessageLang

/-! ## The first call that fails -/

section

variable {ε α β : Type} {f : α → Except ε β}

theorem mapM_cons_of_ok {a : α} {b : β} {as : List α} (h : f a = .ok b) :
    (a :: as).mapM f = (as.mapM f).map (b :: ·) := by
  rw [List.mapM_cons, h]
  cases as.mapM f <;> rfl

theorem mapM_cons_of_error {a : α} {as : List α} {err : ε} (h : f a = .error err) :
    (a :: as).mapM f = .error err := by
  rw [List.mapM_cons, h]
  rfl

/-- A list is gone through up to the first item that fails. -/
theorem mapM_eq_error_iff {as : List α} {err : ε} :
    as.mapM f = .error err ↔ ∃ before a after, as = before ++ a :: after ∧
      (∀ x ∈ before, ∃ b, f x = .ok b) ∧ f a = .error err := by
  induction as with
  | nil => exact ⟨nofun, fun ⟨before, a, after, h, _⟩ => by cases before <;> cases h⟩
  | cons a as ih =>
    cases hf : f a with
    | error err' =>
      rw [mapM_cons_of_error hf]
      refine ⟨fun h => ⟨[], a, as, rfl, nofun, hf.trans (congrArg _ (Except.error.inj h))⟩, ?_⟩
      rintro ⟨_ | ⟨x, before⟩, y, after, heq, hok, herr⟩
      · cases heq
        cases hf.symm.trans herr
        rfl
      · cases heq
        obtain ⟨b, hb⟩ := hok _ List.mem_cons_self
        cases hf.symm.trans hb
    | ok b =>
      have hrest : (a :: as).mapM f = .error err ↔ as.mapM f = .error err := by
        rw [mapM_cons_of_ok hf]
        cases as.mapM f <;> simp [Except.map]
      rw [hrest, ih]
      constructor
      · rintro ⟨before, x, after, rfl, hok, herr⟩
        exact ⟨a :: before, x, after, rfl, List.forall_mem_cons.mpr ⟨⟨b, hf⟩, hok⟩, herr⟩
      · rintro ⟨_ | ⟨x, before⟩, y, after, heq, hok, herr⟩
        · cases heq
          cases hf.symm.trans herr
        · cases heq
          exact ⟨before, y, after, rfl, (List.forall_mem_cons.mp hok).2, herr⟩

end

namespace Value

/-- What a value is gone through as: the items of a list or tuple, the characters of a string, the
keys of a record. -/
def elements? : Value → Option (List Value)
  | .list items | .tuple items => some items
  | .str text => some (text.toList.map fun c => .str (String.singleton c))
  | .record entries => some (entries.map fun e => .str e.1)
  | _ => Option.none

/-- The calls that a converter makes on the parts of a value, unless one before them fails. -/
def innerCalls : Value → Value → List (Value × Value)
  | .converter .list part, .list items => items.map (part, ·)
  | .converter .array part, v => (v.arrayItems?.getD []).map (part, ·)
  | .converter .option _, .none => []
  | .converter .option part, v => [(part, v)]
  | .converter .tuple parts, v =>
    match parts.elements? with
    | some fs => fs.zip ((v.tupleItems? fs.length).getD [])
    | Option.none => []
  | _, _ => []

/-- The results of calls that are made one after the other. -/
def callAll (calls : List (Value × Value)) : Except CallFault (List Value) :=
  calls.mapM fun (f, v) => f.call v

/-- A call of `f` with `v` that no check covers, and what comes of it. -/
inductive Misuses : Value → Value → Defect → Prop where
  /-- What is called is no function. -/
  | notAFunction {f v : Value} : f.isFunction = false → Misuses f v .notAFunction
  | beyondDoubles {b : Builtin} {n : Int} :
    b = .floatText ∨ b = .scalar .float → Double.ofInt? n = Option.none →
    Misuses (.builtin b) (.int n) .beyondDoubles
  /-- The converters of a tuple are no collection. -/
  | notACollection {parts v : Value} :
    parts.length? = Option.none → Misuses (.converter .tuple parts) v .notACollection
  /-- The converters of a tuple are an S-expression, which cannot be gone through. -/
  | sexpParts {items : List Value} {v : Value} :
    (v.tupleItems? items.length).isSome = true →
    Misuses (.converter .tuple (.sexpList items)) v .notACollection
  /-- One of the calls that a converter makes, where those before it went well. -/
  | inner {f v g w : Value} {before after : List (Value × Value)} {d : Defect} :
    f.innerCalls v = before ++ (g, w) :: after → (∀ c ∈ before, ∃ s, c.1.call c.2 = .ok s) →
    Misuses g w d → Misuses f v d

end Value

/-! ## Calls -/

theorem callEach_eq (fs vs : List Value) : callEach fs vs = Value.callAll (fs.zip vs) := by
  induction fs generalizing vs with
  | nil => rfl
  | cons f fs ih =>
    cases vs with
    | nil => rfl
    | cons v vs =>
      rw [callEach, ih, Value.callAll, Value.callAll, List.zip_cons_cons, List.mapM_cons]

namespace Value

variable {f v g w : Value} {d : Defect}

theorem callAll_map (part : Value) (items : List Value) :
    callAll (items.map (part, ·)) = items.mapM fun item => part.call item := by
  induction items with
  | nil => rfl
  | cons item items ih =>
    rw [callAll] at ih ⊢
    rw [List.map_cons, List.mapM_cons, List.mapM_cons, ih]

theorem call_of_isFunction_eq_false (h : f.isFunction = false) :
    f.call v = .error (.defect .notAFunction) := by
  cases f <;> first | rfl | cases h

theorem length?_of_elements? {parts : Value} {fs : List Value} (h : parts.elements? = some fs) :
    parts.length? = some fs.length := by
  cases parts <;> cases h <;> simp [length?, String.length_toList]

/-- What has a length but cannot be gone through is an S-expression. -/
theorem exists_sexpList_of_elements?_eq_none {parts : Value} {n : Nat}
    (h : parts.elements? = Option.none) (hn : parts.length? = some n) :
    ∃ items, parts = .sexpList items ∧ n = items.length := by
  cases parts with
  | sexpList items =>
    cases hn
    exact ⟨items, rfl, rfl⟩
  | str | list | tuple | record => cases h
  | _ => cases hn

theorem tupleItems?_length {n : Nat} {items : List Value} (h : v.tupleItems? n = some items) :
    items.length = n := by
  unfold tupleItems? at h
  split at h
  · split at h
    · rename_i hlen
      cases h
      exact beq_iff_eq.mp hlen
    · cases h
  · split at h
    · rename_i hlen
      cases h
      exact beq_iff_eq.mp hlen
    · cases h
  · cases h

/-- What becomes of a converter's value: it is refused, or there are no converters for its parts,
or these are converted one after the other. -/
inductive Converts (f v : Value) : Except CallFault Value → Prop where
  | refused (fault : ConversionFault) : f.innerCalls v = [] → Converts f v (.error (.refused fault))
  | notACollection : f.innerCalls v = [] → f.Misuses v .notACollection →
    Converts f v (.error (.defect .notACollection))
  | parts : Converts f v ((callAll (f.innerCalls v)).map .sexpList)

/-- The first of several parts that are no functions is called. -/
theorem callAll_zip_of_isFunction_eq_false {fs items : List Value}
    (hfs : ∀ f ∈ fs, f.isFunction = false) (hlen : items.length = fs.length) :
    callAll (fs.zip items) =
      if items.isEmpty then .ok [] else .error (.defect .notAFunction) := by
  cases fs with
  | nil =>
    cases List.eq_nil_of_length_eq_zero hlen
    rfl
  | cons f fs =>
    cases items with
    | nil => cases hlen
    | cons item items =>
      exact mapM_cons_of_error (call_of_isFunction_eq_false (hfs f List.mem_cons_self))

/-- A tuple converter checks how many parts there are, and then calls each of them. -/
theorem call_converter_tuple (parts v : Value) :
    (converter .tuple parts).call v =
      match parts.length?, parts.elements? with
      | .none, _ => .error (.defect .notACollection)
      | .some n, fs? =>
        match v.tupleItems? n, fs? with
        | .none, _ => tupleMismatch n v
        | .some _, .none => .error (.defect .notACollection)
        | .some items, .some fs => (callAll (fs.zip items)).map .sexpList := by
  cases parts with
  | list fs | tuple fs =>
    cases hv : v.tupleItems? fs.length with
    | none => simp [call, length?, hv]
    | some items =>
      simp only [call, length?, elements?, hv, callEach_eq]
      rfl
  | str text =>
    cases hv : v.tupleItems? text.length with
    | none => simp [call, length?, hv]
    | some items =>
      have hfs : ∀ f ∈ text.toList.map fun c => str (String.singleton c), f.isFunction = false := by
        simp [isFunction]
      have hlen := tupleItems?_length hv
      simp only [call, length?, elements?, hv]
      rw [callAll_zip_of_isFunction_eq_false hfs (by simp [hlen, String.length_toList])]
      cases items <;> rfl
  | record entries =>
    cases hv : v.tupleItems? entries.length with
    | none => simp [call, length?, hv]
    | some items =>
      have hfs : ∀ f ∈ entries.map fun e => str e.1, f.isFunction = false := by
        intro f hf
        obtain ⟨e, -, rfl⟩ := List.mem_map.mp hf
        rfl
      have hlen := tupleItems?_length hv
      simp only [call, length?, elements?, hv]
      rw [callAll_zip_of_isFunction_eq_false hfs (by simp [hlen])]
      cases items <;> rfl
  | sexpList items =>
    cases hv : v.tupleItems? items.length with
    | none => simp [call, length?, elements?, hv]
    | some => simp [call, length?, elements?, hv]
  | _ => rfl

/-- The converters of a tuple's parts are checked to be as many as there are parts, and to be a
collection, before any of them is called. -/
theorem converts_tuple (parts v : Value) :
    (converter .tuple parts).Converts v ((converter .tuple parts).call v) := by
  rw [call_converter_tuple]
  cases hp : parts.elements? with
  | some fs =>
    rw [length?_of_elements? hp]
    have hcalls : (converter .tuple parts).innerCalls v =
        fs.zip ((v.tupleItems? fs.length).getD []) := by
      simp [innerCalls, hp]
    cases hv : v.tupleItems? fs.length with
    | none =>
      simp only [hv]
      exact .refused _ (by simp [hcalls, hv])
    | some items =>
      rw [hv, Option.getD_some] at hcalls
      simp only [hv, ← hcalls]
      exact .parts
  | none =>
    have hcalls : (converter .tuple parts).innerCalls v = [] := by simp [innerCalls, hp]
    cases hn : parts.length? with
    | none => exact .notACollection hcalls (.notACollection hn)
    | some n =>
      cases hv : v.tupleItems? n with
      | none =>
        simp only [hv]
        exact .refused _ hcalls
      | some items =>
        simp only [hv]
        refine .notACollection hcalls ?_
        obtain ⟨parts, rfl, rfl⟩ := exists_sexpList_of_elements?_eq_none hp hn
        exact .sexpParts (by rw [hv, Option.isSome_some])

/-- A converter checks its value first, and then calls the converters of the parts in their order. -/
theorem converts (type : Family) (parts v : Value) :
    (converter type parts).Converts v ((converter type parts).call v) := by
  cases type with
  | list =>
    cases v with
    | list items =>
      have hcall : (converter .list parts).call (.list items) =
          (callAll ((converter .list parts).innerCalls (.list items))).map .sexpList := by
        simp only [call, innerCalls, callAll_map]
        rfl
      rw [hcall]
      exact .parts
    | _ => exact .refused _ rfl
  | array =>
    cases hv : v.arrayItems? with
    | none =>
      have hcall : (converter .array parts).call v = mismatch "array" v := by simp [call, hv]
      rw [hcall]
      exact .refused _ (by simp [innerCalls, hv])
    | some items =>
      have hcall : (converter .array parts).call v =
          (callAll ((converter .array parts).innerCalls v)).map .sexpList := by
        simp only [call, innerCalls, hv, Option.getD_some, callAll_map]
        rfl
      rw [hcall]
      exact .parts
  | option =>
    have hcall : (converter .option parts).call v =
        (callAll ((converter .option parts).innerCalls v)).map .sexpList := by
      cases v with
      | none => rfl
      | _ =>
        simp only [call, innerCalls, callAll, List.mapM_cons, List.mapM_nil]
        cases parts.call _ <;> rfl
    rw [hcall]
    exact .parts
  | tuple => exact converts_tuple parts v

/-! ## Misuses -/

theorem exists_of_innerCalls_ne_nil (h : f.innerCalls v ≠ []) :
    ∃ type parts, f = converter type parts := by
  cases f with
  | converter type parts => exact ⟨type, parts, rfl⟩
  | _ => exact absurd rfl h

/-- A function that a converter calls is a part of it. -/
theorem sizeOf_lt_of_mem_innerCalls (h : (g, w) ∈ f.innerCalls v) (hg : g.isFunction = true) :
    sizeOf g < sizeOf f := by
  obtain ⟨type, parts, rfl⟩ := exists_of_innerCalls_ne_nil (List.ne_nil_of_mem h)
  suffices hparts : sizeOf g ≤ sizeOf parts by
    rw [converter.sizeOf_spec]
    omega
  cases type with
  | list =>
    cases v with
    | list items =>
      obtain ⟨item, -, heq⟩ := List.mem_map.mp h
      cases heq
      exact Nat.le_refl _
    | _ => cases h
  | array =>
    obtain ⟨item, -, heq⟩ := List.mem_map.mp h
    cases heq
    exact Nat.le_refl _
  | option =>
    cases v with
    | none => cases h
    | _ =>
      cases List.mem_singleton.mp h
      exact Nat.le_refl _
  | tuple =>
    cases parts with
    | list fs | tuple fs =>
      have hmem : g ∈ fs := (List.of_mem_zip h).1
      have hlt := List.sizeOf_lt_of_mem hmem
      simp only [list.sizeOf_spec, tuple.sizeOf_spec]
      omega
    | str text =>
      obtain ⟨c, -, rfl⟩ := List.mem_map.mp (List.of_mem_zip h).1
      cases hg
    | record entries =>
      obtain ⟨e, -, rfl⟩ := List.mem_map.mp (List.of_mem_zip h).1
      cases hg
    | _ => cases h

theorem toDouble_eq_defect (h : v.toDouble = .error (.defect d)) :
    ∃ n, v = .int n ∧ Double.ofInt? n = Option.none ∧ d = .beyondDoubles := by
  cases v with
  | int n =>
    cases hn : Double.ofInt? n with
    | none =>
      simp only [toDouble, hn] at h
      cases h
      exact ⟨n, rfl, hn, rfl⟩
    | some x =>
      simp only [toDouble, hn] at h
      cases h
  | _ => cases h

theorem numeral_ne_defect (k : IntegerKind) : k.numeral v ≠ .error (.defect d) := by
  unfold IntegerKind.numeral
  split
  · split <;> exact nofun
  · exact nofun

/-- A function of a result fails only where the result does. -/
theorem eq_error_of_map_eq_error {ε α β : Type} {r : Except ε α} {k : α → β} {err : ε}
    (h : (do let a ← r; return k a) = Except.error err) : r = .error err := by
  cases r with
  | ok a => cases h
  | error err' =>
    cases h
    rfl

/-- Of what is built in, only the conversions of floats do not check enough. -/
theorem misuses_of_call_builtin {b : Builtin} (h : (builtin b).call v = .error (.defect d)) :
    (builtin b).Misuses v d := by
  have hcall : b.call v = .error (.defect d) := by simpa [call] using h
  cases b with
  | floatText =>
    obtain ⟨n, rfl, hn, rfl⟩ := toDouble_eq_defect (eq_error_of_map_eq_error hcall)
    exact .beyondDoubles (.inl rfl) hn
  | intText => exact absurd (eq_error_of_map_eq_error hcall) (numeral_ne_defect _)
  | makeAtom => cases v <;> cases hcall
  | makeList =>
    cases v with
    | list items =>
      simp only [Builtin.call] at hcall
      split at hcall <;> cases hcall
    | _ => cases hcall
  | sexp =>
    simp only [Builtin.call] at hcall
    split at hcall <;> cases hcall
  | some => cases hcall
  | family type => cases hcall
  | scalar type =>
    have hcall : type.convert v = .error (.defect d) := hcall
    cases type with
    | float =>
      obtain ⟨n, rfl, hn, rfl⟩ := toDouble_eq_defect (eq_error_of_map_eq_error hcall)
      exact .beyondDoubles (.inr rfl) hn
    | integer k => exact absurd (eq_error_of_map_eq_error hcall) (numeral_ne_defect k)
    | char =>
      cases v with
      | str text =>
        simp only [Scalar.convert] at hcall
        split at hcall <;> cases hcall
      | _ => cases hcall
    | string | bool => cases v <;> cases hcall
    | unit =>
      cases v with
      | tuple items => cases items <;> cases hcall
      | _ => cases hcall
    | anything => cases hcall

/-- A misuse ends in a defect. -/
theorem Misuses.call_eq (h : f.Misuses v d) : f.call v = .error (.defect d) := by
  induction h with
  | notAFunction h => exact call_of_isFunction_eq_false h
  | @beyondDoubles b n hb hn =>
    rcases hb with rfl | rfl
    all_goals
      simp only [call, Builtin.call, Scalar.convert, toDouble, hn]
      rfl
  | notACollection h =>
    rw [call_converter_tuple, h]
  | @sexpParts items v h =>
    obtain ⟨items', hv⟩ := Option.isSome_iff_exists.mp h
    simp [call, length?, hv]
  | @inner f v g w before after d heq hok _ ih =>
    have hne : f.innerCalls v ≠ [] := by simp [heq]
    have herr : callAll (f.innerCalls v) = .error (.defect d) :=
      mapM_eq_error_iff.mpr ⟨before, (g, w), after, heq, hok, ih⟩
    obtain ⟨type, parts, rfl⟩ := exists_of_innerCalls_ne_nil hne
    have hconv := converts type parts v
    generalize hr : (converter type parts).call v = r at hconv
    cases hconv with
    | refused _ hnil => exact absurd hnil hne
    | notACollection hnil => exact absurd hnil hne
    | parts => rw [herr]; rfl

/-- What ends in a defect is a misuse: the induction goes from a converter to those of the parts. -/
theorem misuses_of_call (f v : Value) (d : Defect) (h : f.call v = .error (.defect d)) :
    f.Misuses v d := by
  cases hf : f.isFunction with
  | false =>
    cases (call_of_isFunction_eq_false hf).symm.trans h
    exact .notAFunction hf
  | true =>
    cases f with
    | builtin b => exact misuses_of_call_builtin h
    | converter type parts =>
      have hconv := converts type parts v
      generalize hr : (converter type parts).call v = r at hconv
      cases hconv with
      | refused => cases hr.symm.trans h
      | notACollection _ hmis =>
        cases hr.symm.trans h
        exact hmis
      | parts =>
        cases herr : callAll ((converter type parts).innerCalls v) with
        | ok items =>
          rw [h, herr] at hr
          cases hr
        | error fault =>
          rw [h, herr] at hr
          cases hr
          obtain ⟨before, ⟨g, w⟩, after, heq, hok, hg⟩ := mapM_eq_error_iff.mp herr
          have hmem : (g, w) ∈ (converter type parts).innerCalls v := by simp [heq]
          refine .inner heq hok ?_
          cases hgf : g.isFunction with
          | false =>
            cases (call_of_isFunction_eq_false hgf).symm.trans hg
            exact .notAFunction hgf
          | true =>
            have := sizeOf_lt_of_mem_innerCalls hmem hgf
            exact misuses_of_call g w d hg
    | _ => cases hf
termination_by sizeOf f

/-- A call ends in a defect exactly if it is a misuse. -/
theorem call_eq_defect_iff : f.call v = .error (.defect d) ↔ f.Misuses v d :=
  ⟨misuses_of_call f v d, Misuses.call_eq⟩

end Value
end MessageLang
