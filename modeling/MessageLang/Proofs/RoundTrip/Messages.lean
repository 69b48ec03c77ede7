import MessageLang.Proofs.RoundTrip.Copies
/-!
# The messages of copies

A message and its copy have the same arguments, one by one, but for places and flat applications. So
the arguments contribute what is alike, and code that is alike is assembled from it.

* `Omittable.Alike`: contributions that are alike.
* `Argument.IsReadable.alike_contribution`: what an argument and its copy contribute.
* `alike_assemble`: what is assembled from contributions that are alike.
* `Setting.copies_siteWithin`: uses of extensions are alike to their copies.
-/
namespace MessageLang

open Omittable

section

variable {site : Site} {l l' : Option Location}

/-! ## Converters -/

theorem exists_of_bare_named {t : TypeExpr} {name : String} {ts : List TypeExpr}
    {m : Option Location} (hb : t.bare = (TypeExpr.named name ts m).bare) :
    ∃ ts' m', t = .named name ts' m' ∧ ts'.map TypeExpr.bare = ts.map TypeExpr.bare := by
  cases t with
  | named name' ts' m' =>
    rw [TypeExpr.bare, TypeExpr.bare, bareTypes_eq_map, bareTypes_eq_map] at hb
    obtain ⟨rfl, hts, -⟩ := TypeExpr.named.inj hb
    exact ⟨ts', m', rfl, hts⟩
  | tuple ts' m' => cases hb
  | other n => cases hb

theorem exists_of_typeConverters_cons {t : TypeExpr} {ts : List TypeExpr} {fs : List Expr}
    (h : typeConverters (t :: ts) = .ok fs) :
    ∃ f fs', fs = f :: fs' ∧ t.converter = .ok f ∧ typeConverters ts = .ok fs' := by
  rw [typeConverters] at h
  cases ht : t.converter with
  | error failure =>
    rw [ht] at h
    cases h
  | ok f =>
    cases hts : typeConverters ts with
    | error failure =>
      rw [ht, hts] at h
      cases h
    | ok fs' =>
      rw [ht, hts] at h
      cases h
      exact ⟨f, fs', rfl, rfl, rfl⟩

/-- The converter of a type with a parameter; that of a hidden type takes none. -/
theorem exists_of_converter_applied {name : String} {t : TypeExpr} {l : Option Location} {f : Expr}
    (h : (TypeExpr.named name [t] l).converter = .ok f) :
    (name = Converter.hiddenType ∧ f = .identifier (Converter.name name) l) ∨
      (name ≠ Converter.hiddenType ∧
        ∃ g, t.converter = .ok g ∧ f = .call (.identifier (Converter.name name) l) [g] l) := by
  simp only [TypeExpr.converter, List.isEmpty_cons, Bool.false_or] at h
  split at h
  · rename_i hhidden
    cases h
    exact .inl ⟨eq_of_beq hhidden, rfl⟩
  · rename_i hshown
    cases hfs : typeConverters [t] with
    | error failure =>
      rw [hfs] at h
      cases h
    | ok fs =>
      rw [hfs] at h
      cases h
      obtain ⟨g, gs, rfl, hg, hgs⟩ := exists_of_typeConverters_cons hfs
      cases hgs
      exact .inr ⟨fun heq => hshown (beq_iff_eq.mpr heq), g, hg, rfl⟩

theorem exists_of_converter_tuple {ts : List TypeExpr} {l : Option Location} {f : Expr}
    (h : (TypeExpr.tuple ts l).converter = .ok f) :
    ∃ fs, typeConverters ts = .ok fs ∧
      f = .call (.identifier Converter.tupleName l) [.list fs l] l := by
  rw [TypeExpr.converter] at h
  split at h
  · cases h
  · cases hfs : typeConverters ts with
    | error failure =>
      rw [hfs] at h
      cases h
    | ok fs =>
      rw [hfs] at h
      cases h
      exact ⟨fs, rfl, rfl⟩

theorem forall₂_alike_converters {ts ts' : List TypeExpr} {fs fs' : List Expr}
    (h : ∀ t ∈ ts, ∀ t' ∈ ts', t'.bare = t.bare → ∀ f f', t.converter = .ok f →
      t'.converter = .ok f' → f.Alike site f')
    (hb : ts'.map TypeExpr.bare = ts.map TypeExpr.bare) (hf : typeConverters ts = .ok fs)
    (hf' : typeConverters ts' = .ok fs') : List.Forall₂ (Expr.Alike site) fs fs' := by
  induction ts generalizing ts' fs fs' with
  | nil =>
    rw [List.map_eq_nil_iff.mp hb] at hf'
    cases hf
    cases hf'
    exact .nil
  | cons t ts ih =>
    obtain ⟨t', ts'', rfl, ht, hts⟩ := List.map_eq_cons_iff.mp hb
    obtain ⟨f, fs₁, rfl, hft, hfts⟩ := exists_of_typeConverters_cons hf
    obtain ⟨f', fs₁', rfl, hft', hfts'⟩ := exists_of_typeConverters_cons hf'
    refine .cons (h t List.mem_cons_self t' List.mem_cons_self ht f f' hft hft')
      (ih (fun x hx x' hx' => ?_) hts hfts hfts')
    exact h x (List.mem_cons_of_mem _ hx) x' (List.mem_cons_of_mem _ hx')

/-- Types that are the same but for places have converters that are alike. -/
theorem TypeExpr.IsReadable.alike_converter {t t' : TypeExpr} (h : t.IsReadable)
    (hb : t'.bare = t.bare) {f f' : Expr} (hf : t.converter = .ok f)
    (hf' : t'.converter = .ok f') : f.Alike site f' := by
  induction h generalizing t' f f' with
  | @name name m =>
    obtain ⟨ts', m', rfl, hts⟩ := exists_of_bare_named hb
    rw [List.map_eq_nil_iff.mp hts] at hf'
    cases hf
    cases hf'
    exact alike_identifier _
  | @applied name t m _ _ ih =>
    obtain ⟨ts', m', rfl, hts⟩ := exists_of_bare_named hb
    obtain ⟨t', rfl, ht⟩ := List.map_eq_singleton_iff.mp hts
    rcases exists_of_converter_applied hf with ⟨hname, rfl⟩ | ⟨hname, g, hg, rfl⟩
    · rcases exists_of_converter_applied hf' with ⟨-, rfl⟩ | ⟨hname', -⟩
      · exact alike_identifier _
      · exact absurd hname hname'
    · rcases exists_of_converter_applied hf' with ⟨hname', -⟩ | ⟨-, g', hg', rfl⟩
      · exact absurd hname' hname
      · exact alike_call (alike_identifier _) (ih ht hg hg')
  | @tuple ts m _ _ ih =>
    cases t' with
    | named name ts' m' => cases hb
    | other n => cases hb
    | tuple ts' m' =>
      rw [TypeExpr.bare, TypeExpr.bare, bareTypes_eq_map, bareTypes_eq_map] at hb
      obtain ⟨fs, hfs, rfl⟩ := exists_of_converter_tuple hf
      obtain ⟨fs', hfs', rfl⟩ := exists_of_converter_tuple hf'
      exact alike_call (alike_identifier _) (alike_list (forall₂_alike_converters
        (fun t ht t' _ hbt f f' hf hf' => ih t ht hbt hf hf') (TypeExpr.tuple.inj hb).1 hfs hfs'))

/-! ## Contributions -/

/-- Contributions that are alike, also around the content of an option. -/
def Omittable.Alike (site : Site) : Omittable → Omittable → Prop
  | present e, present e' => e.Alike site e'
  | optional _ e wrap, optional _ e' wrap' => e.Alike site e' ∧ ∀ l l',
    (wrap (.identifier contentName l)).Alike site (wrap' (.identifier contentName l'))
  | absent, absent => True
  | _, _ => False

theorem alike_tagged {e e' : Expr} (h : e.Alike site e') (tag : String) :
    (Code.tagged l (some tag) e).Alike site (Code.tagged l' (some tag) e') := by
  have htag : (Code.atom l (.constant (.ofString tag l))).Alike site
      (Code.atom l' (.constant (.ofString tag l'))) :=
    alike_call (alike_identifier "Sexp.Atom") (alike_constant rfl)
  exact alike_call (alike_identifier "Sexp.List") (alike_list (.cons htag (.cons h .nil)))

theorem Constant.isEmptyString_of_bare {c c' : Constant} (hb : c'.bare = c.bare) :
    c'.isEmptyString = c.isEmptyString := by
  obtain ⟨hvalue, hkind, -⟩ := Constant.mk.inj hb
  unfold Constant.isEmptyString
  rw [hvalue, hkind]

theorem TypeExpr.optional?_eq_none_of_bare {t t' : TypeExpr} (hb : t'.bare = t.bare)
    (h : t.optional? = none) : t'.optional? = none := by
  cases h' : t'.optional? with
  | none => rfl
  | some u =>
    obtain ⟨m, rfl⟩ := TypeExpr.exists_of_optional? h'
    obtain ⟨ts, m', rfl, hts⟩ := exists_of_bare_named hb.symm
    obtain ⟨u', rfl, -⟩ := List.map_eq_singleton_iff.mp hts
    cases h

/-- A copy of an application is an application. -/
theorem Expr.exists_flatten_apply (f : Expr) (args : List Argument) (m : Option Location) :
    ∃ g args' m', (Expr.apply f args m).flatten = .apply g args' m' := by
  rw [Expr.flatten]
  cases f.flatten <;> exact ⟨_, _, _, rfl⟩

/-- The copy of an expression is of the same kind. -/
theorem Expr.IsReadable.exists_of_bare_constant {e : Expr} (h : e.IsReadable) {c : Constant}
    (hb : (Expr.constant c).bare = e.flatten.bare) : ∃ c', e = .constant c' := by
  cases h with
  | constant => exact ⟨_, rfl⟩
  | @apply f args m _ _ _ _ =>
    obtain ⟨g, args', m', heq⟩ := Expr.exists_flatten_apply f args m
    rw [heq] at hb
    cases hb
  | _ => cases hb

theorem Expr.IsReadable.exists_of_bare_constraint {e x : Expr} (h : e.IsReadable) {t : TypeExpr}
    {m : Option Location} (hb : (Expr.constraint x t m).bare = e.flatten.bare) :
    ∃ x' t' m', e = .constraint x' t' m' := by
  cases h with
  | constraint => exact ⟨_, _, _, rfl⟩
  | @apply f args m _ _ _ _ =>
    obtain ⟨g, args', m', heq⟩ := Expr.exists_flatten_apply f args m
    rw [heq] at hb
    cases hb
  | _ => cases hb

theorem Expr.IsReadable.exists_of_bare_extension {e : Expr} (h : e.IsReadable) {name : String}
    {m : Option Location} (hb : (Expr.extension name none m).bare = e.flatten.bare) :
    ∃ m', e = .extension name none m' := by
  cases h with
  | extension =>
    obtain ⟨rfl, -⟩ := Expr.extension.inj hb
    exact ⟨_, rfl⟩
  | @apply f args m _ _ _ _ =>
    obtain ⟨g, args', m', heq⟩ := Expr.exists_flatten_apply f args m
    rw [heq] at hb
    cases hb
  | _ => cases hb

section

variable {item item' : Omittable}

/-- Constants that are the same but for places. -/
theorem Expr.Contributes.alike_of_constant {c c' : Constant} (hb : c'.bare = c.bare)
    (h : (Expr.constant c).Contributes item) (h' : (Expr.constant c').Contributes item') :
    item.Alike site item' := by
  have hempty := Constant.isEmptyString_of_bare hb
  obtain ⟨hvalue, hkind, -⟩ := Constant.mk.inj hb
  cases h with
  | text hc => exact absurd rfl (hc c)
  | empty he =>
    cases h' with
    | text hc => exact absurd rfl (hc c')
    | empty => trivial
    | constant hf =>
      rw [hempty, he] at hf
      cases hf
  | constant hf hk =>
    cases h' with
    | text hc => exact absurd rfl (hc c')
    | empty he =>
      rw [hempty, hf] at he
      cases he
    | constant _ hk' =>
      rw [hkind, hk] at hk'
      cases hk'
      exact alike_call (alike_identifier _) (alike_constant hvalue)

/-- Annotated expressions that are alike, with types that are the same but for places. -/
theorem Expr.Contributes.alike_of_constraint {x x' : Expr} {t t' : TypeExpr}
    {m m' : Option Location} (ht : t.IsReadable) (hb : t'.bare = t.bare) (hx : x.Alike site x')
    (h : (Expr.constraint x t m).Contributes item)
    (h' : (Expr.constraint x' t' m').Contributes item') : item.Alike site item' := by
  cases h with
  | text _ hc => exact absurd rfl (hc x t m)
  | annotated ho hf =>
    cases h' with
    | text _ hc => exact absurd rfl (hc x' t' m')
    | optional => cases TypeExpr.optional?_eq_none_of_bare hb ho
    | annotated _ hf' => exact alike_call (ht.alike_converter hb hf hf') hx
  | optional hf =>
    obtain ⟨ts, m'', rfl, hts⟩ := exists_of_bare_named hb
    obtain ⟨u, rfl, hu⟩ := List.map_eq_singleton_iff.mp hts
    cases h' with
    | text _ hc => exact absurd rfl (hc x' _ m')
    | annotated ho => cases ho
    | optional hf' =>
      cases ht with
      | applied _ ht =>
        exact ⟨hx, fun l l' => alike_call (ht.alike_converter hu hf hf') (alike_identifier _)⟩

/-- What an expression and its copy contribute is alike. -/
theorem Expr.Contributes.alike (hs : site.Copies) {e e' : Expr} (h : e.Contributes item)
    (h' : e'.Contributes item') (he : e.IsReadable) (he' : e'.IsReadable) (hk : e.All Keeps)
    (hb : e'.bare = e.flatten.bare) : item.Alike site item' := by
  cases h with
  | here => exact absurd rfl hk.self.1
  | empty hc =>
    cases he' with
    | constant => exact (Contributes.empty hc).alike_of_constant (Expr.constant.inj hb) h'
    | _ => cases hb
  | constant hc hkind =>
    cases he' with
    | constant => exact (Contributes.constant hc hkind).alike_of_constant (Expr.constant.inj hb) h'
    | _ => cases hb
  | optional hf =>
    cases he with
    | constraint hx ht =>
      cases he' with
      | constraint hx' =>
        obtain ⟨hbx, hbt, -⟩ := Expr.constraint.inj hb
        exact (Contributes.optional hf).alike_of_constraint ht hbt
          (hx.alike hs (all_constraint.mp hk).2 hx' hbx) h'
      | _ => cases hb
  | annotated ho hf =>
    cases he with
    | constraint hx ht =>
      cases he' with
      | constraint hx' =>
        obtain ⟨hbx, hbt, -⟩ := Expr.constraint.inj hb
        exact (Contributes.annotated ho hf).alike_of_constraint ht hbt
          (hx.alike hs (all_constraint.mp hk).2 hx' hbx) h'
      | _ => cases hb
  | text hc ht hh =>
    have hcall : ∀ l l', (Expr.call (.identifier "Conv.sexp_of_string" e.location) [e] l).Alike site
        (.call (.identifier "Conv.sexp_of_string" e'.location) [e'] l') := fun l l' =>
      alike_call (alike_identifier _) (he.alike hs hk he' hb)
    cases h' with
    | text => exact hcall _ _
    | empty | constant =>
      obtain ⟨c, rfl⟩ := he.exists_of_bare_constant hb
      exact absurd rfl (hc c)
    | optional | annotated =>
      obtain ⟨x, t, m, rfl⟩ := he.exists_of_bare_constraint hb
      exact absurd rfl (ht x t m)
    | here =>
      obtain ⟨m, rfl⟩ := he.exists_of_bare_extension hb
      exact absurd rfl (hh m)

end

/-- A tag is put in front of what is alike. -/
theorem Omittable.Alike.map_tagged {item item' : Omittable} (h : item.Alike site item')
    (tag : String) :
    (item.map (Code.tagged l (some tag))).Alike site (item'.map (Code.tagged l' (some tag))) := by
  cases item with
  | present e =>
    cases item' with
    | present e' => exact alike_tagged h tag
    | optional m' e' wrap' => exact absurd h id
    | absent => exact absurd h id
  | optional m e wrap =>
    cases item' with
    | present e' => exact absurd h id
    | optional m' e' wrap' => exact ⟨h.1, fun l l' => alike_tagged (h.2 l l') tag⟩
    | absent => exact absurd h id
  | absent =>
    cases item' with
    | present e' => exact absurd h id
    | optional m' e' wrap' => exact absurd h id
    | absent => trivial

/-- Contributions that are alike, behind the tags of an argument and its copy. -/
theorem Omittable.Alike.behind {item item' : Omittable} (h : item.Alike site item')
    {label : Label} {e e' : Expr} (he : e.IsReadable) (he' : e'.IsReadable)
    (hb : e'.bare = e.flatten.bare) :
    (item.behind (Argument.mk label e).tag?).Alike site
      (item'.behind (Argument.mk label e').tag?) := by
  cases label with
  | optional name => exact h
  | labelled name =>
    simp only [Argument.tag?]
    split
    · exact h
    · exact h.map_tagged name
  | positional =>
    by_cases hc : ∃ x t m, e = .constraint x t m
    · obtain ⟨x, t, m, rfl⟩ := hc
      cases he with
      | constraint hx _ =>
        cases he' with
        | constraint hx' _ =>
          have htext := hx.toText_of_bare hx' (Expr.constraint.inj hb).1
          simp only [Argument.tag?, htext]
          exact h.map_tagged _
        | _ => cases hb
    · have hplain : ∀ {x : Expr}, (∀ y t m, x ≠ .constraint y t m) →
          (Argument.mk .positional x).tag? = none := by
        intro x hx
        cases x with
        | constraint y t m => exact absurd rfl (hx y t m)
        | _ => rfl
      rw [hplain fun x t m heq => hc ⟨x, t, m, heq⟩, hplain fun x t m heq => ?_]
      · exact h
      · subst heq
        exact hc (he.exists_of_bare_constraint hb)

/-- What an argument and its copy contribute is alike. -/
theorem Argument.IsReadable.alike_contribution (hs : site.Copies) {a a' : Argument}
    {item : Omittable} (h : a.IsReadable) (h' : a'.IsReadable)
    (hk : ∀ label e, a = .mk label e → e.All Expr.Keeps) (hb : a'.bare = a.flatten.bare)
    (hitem : a.contribution .standard = .ok item) :
    ∃ item', a'.contribution .standard = .ok item' ∧ item.Alike site item' := by
  rcases h.contribution_cases with ⟨_, _, -, herr⟩ | ⟨label, e, i, rfl, hl, he, hc, hok⟩
  · cases hitem.symm.trans herr
  · cases hitem.symm.trans hok
    rcases h'.contribution_cases with ⟨name, _, rfl, -⟩ | ⟨label', e', i', rfl, -, he', hc', hok'⟩
    · exact absurd (Argument.mk.inj hb).1.symm (hl name)
    · obtain ⟨rfl, hbare⟩ := Argument.mk.inj hb
      have hi : i.Alike site i' := hc.alike hs hc' he he' (hk _ e rfl) hbare
      exact ⟨_, hok', hi.behind he he' hbare⟩

theorem forall₂_alike_contributions (hs : site.Copies) {args args' : List Argument}
    {items : List Omittable} (h : ∀ a ∈ args, a.IsReadable) (h' : ∀ a ∈ args', a.IsReadable)
    (hk : ∀ label e, .mk label e ∈ args → e.All Expr.Keeps)
    (hb : args'.map Argument.bare = args.map fun a => a.flatten.bare)
    (hm : args.mapM (·.contribution .standard) = .ok items) :
    ∃ items', args'.mapM (·.contribution .standard) = .ok items' ∧
      List.Forall₂ (Omittable.Alike site) items items' := by
  induction args generalizing args' items with
  | nil =>
    rw [List.map_eq_nil_iff.mp hb]
    cases hm
    exact ⟨[], rfl, .nil⟩
  | cons a args ih =>
    obtain ⟨a', args'', rfl, ha, hargs⟩ := List.map_eq_cons_iff.mp hb
    obtain ⟨item, items₁, rfl, hitem, hitems⟩ := exists_of_mapM_cons hm
    obtain ⟨h₁, h₂⟩ := List.forall_mem_cons.mp h
    obtain ⟨h₁', h₂'⟩ := List.forall_mem_cons.mp h'
    have hka : ∀ label e, a = .mk label e → e.All Expr.Keeps := fun label e heq =>
      hk label e (heq ▸ List.mem_cons_self)
    obtain ⟨item', hitem', halike⟩ := h₁.alike_contribution hs h₁' hka ha hitem
    obtain ⟨items', hitems', hrest⟩ :=
      ih h₂ h₂' (fun label e he => hk label e (List.mem_cons_of_mem _ he)) hargs hitems
    refine ⟨item' :: items', ?_, .cons halike hrest⟩
    rw [List.mapM_cons, hitem', hitems']
    rfl

/-! ## Assembling contributions -/

/-- Lists as they are built up: two list literals with items that are alike, or two expressions of
another kind that are alike. -/
inductive Expr.AlikeLists (site : Site) : Expr → Expr → Prop where
  | literal {es es' : List Expr} {l l' : Option Location} :
    List.Forall₂ (Expr.Alike site) es es' → AlikeLists site (.list es l) (.list es' l')
  | other {e e' : Expr} : (∀ es l, e ≠ .list es l) → (∀ es l, e' ≠ .list es l) →
    e.Alike site e' → AlikeLists site e e'

section

variable {tail tail' : Expr}

theorem Expr.AlikeLists.alike (h : tail.AlikeLists site tail') : tail.Alike site tail' := by
  cases h with
  | literal hes => exact alike_list hes
  | other _ _ h => exact h

theorem alikeLists_prepend {head head' : Expr} (hh : head.Alike site head')
    (ht : tail.AlikeLists site tail') :
    (Code.prepend l head tail).AlikeLists site (Code.prepend l' head' tail') := by
  cases ht with
  | literal hes => exact .literal (.cons hh hes)
  | other hn hn' h =>
    have hcons : ∀ {l : Option Location} {head tail : Expr}, (∀ es l, tail ≠ .list es l) →
        Code.prepend l head tail = .cons head tail l := by
      intro l head tail hne
      unfold Code.prepend
      split
      · exact absurd rfl (hne _ _)
      · rfl
    rw [hcons hn, hcons hn']
    exact .other nofun nofun (alike_cons hh h)

/-- Contributions that are alike, in front of lists that are. -/
theorem Omittable.Alike.onto {item item' : Omittable} (h : item.Alike site item')
    (ht : tail.AlikeLists site tail') :
    (item.onto l tail).AlikeLists site (item'.onto l' tail') := by
  cases item with
  | present e =>
    cases item' with
    | present e' => exact alikeLists_prepend h ht
    | optional m' e' wrap' => exact absurd h id
    | absent => exact absurd h id
  | optional m e wrap =>
    cases item' with
    | present e' => exact absurd h id
    | optional m' e' wrap' =>
      obtain ⟨he, hw⟩ := h
      refine .other nofun nofun (alike_matching (alike_tuple (.cons he (.cons ht.alike .nil))) ?_)
      exact .cons ⟨rfl, alike_identifier tailName⟩
        (.cons ⟨rfl, alike_cons (hw l l') (alike_identifier tailName)⟩ .nil)
    | absent => exact absurd h id
  | absent =>
    cases item' with
    | present e' => exact absurd h id
    | optional m' e' wrap' => exact absurd h id
    | absent => exact ht

end

theorem alikeLists_foldr (l l' : Option Location) {items items' : List Omittable}
    (h : List.Forall₂ (Omittable.Alike site) items items') :
    (items.foldr (fun item tail => onto l tail item) (Expr.list [] l)).AlikeLists site
      (items'.foldr (fun item tail => onto l' tail item) (Expr.list [] l')) := by
  induction h with
  | nil => exact .literal .nil
  | cons hi _ ih => exact hi.onto ih

theorem alike_collapse {e e' : Expr} (h : e.Alike site e') :
    (collapse l e).Alike site (collapse l' e') := by
  have hmany : (Code.list l (.identifier resultName l)).Alike site
      (Code.list l' (.identifier resultName l')) :=
    alike_call (alike_identifier "Sexp.List") (alike_identifier resultName)
  exact alike_matching h (.cons ⟨rfl, alike_identifier headName⟩ (.cons ⟨rfl, hmany⟩ .nil))

theorem any_isOptional_of_alike {items items' : List Omittable}
    (h : List.Forall₂ (Omittable.Alike site) items items') :
    items'.any isOptional = items.any isOptional := by
  induction h with
  | nil => rfl
  | @cons item item' items items' hi _ ih =>
    rw [List.any_cons, List.any_cons, ih]
    cases item <;> cases item' <;> first | rfl | exact absurd hi id

/-- What is assembled from contributions that are alike is alike. -/
theorem alike_assemble {items items' : List Omittable}
    (h : List.Forall₂ (Omittable.Alike site) items items') :
    (assemble l items).Alike site (assemble l' items') := by
  have hfold := alikeLists_foldr l l' h
  have hany := any_isOptional_of_alike h
  unfold assemble
  dsimp only
  rw [hany]
  split
  · exact alike_collapse hfold.alike
  · generalize items.foldr (fun item tail => onto l tail item) (Expr.list [] l) = e at hfold
    generalize items'.foldr (fun item tail => onto l' tail item) (Expr.list [] l') = e' at hfold
    have hlist : (Code.list l e).Alike site (Code.list l' e') :=
      alike_call (alike_identifier "Sexp.List") hfold.alike
    cases hfold with
    | literal hes =>
      cases hes with
      | nil => exact hlist
      | cons he hrest =>
        cases hrest with
        | nil => exact he
        | cons => exact hlist
    | other hn hn' =>
      split
      · exact absurd rfl (hn _ _)
      · split
        · exact absurd rfl (hn' _ _)
        · exact hlist

/-! ## Messages -/

theorem isApply_flatten (e : Expr) : e.flatten.isApply = e.isApply := by
  cases e with
  | apply f args m =>
    obtain ⟨g, args', m', heq⟩ := Expr.exists_flatten_apply f args m
    rw [heq]
    rfl
  | extension name payload m => cases payload <;> rfl
  | _ => rfl

theorem Message.arguments_of_isApply_eq_false {e : Expr} (h : e.isApply = false) :
    Message.arguments e = [.mk .positional e] := by
  cases e <;> first | rfl | cases h

/-- The arguments of a message whose payload is no application of an application are those of its
copies. -/
theorem Message.arguments_of_bare {e e' : Expr}
    (hplain : ∀ f args m, e = .apply f args m → f.isApply = false)
    (hb : e'.bare = e.flatten.bare) :
    (Message.arguments e').map Argument.bare =
      (Message.arguments e).map fun a => a.flatten.bare := by
  have hsame : e'.isApply = e.isApply := by
    rw [← Expr.isApply_bare, hb, Expr.isApply_bare, isApply_flatten]
  cases hap : e.isApply with
  | false =>
    rw [Message.arguments_of_isApply_eq_false hap,
      Message.arguments_of_isApply_eq_false (hsame.trans hap)]
    exact congrArg (fun x => [Argument.mk .positional x]) hb
  | true =>
    cases e with
    | apply f args m =>
      have hf : f.flatten.isApply = false := by rw [isApply_flatten, hplain f args m rfl]
      rw [Expr.flatten, Expr.applied_of_isApply_eq_false hf, flattenArguments_eq_map] at hb
      cases e' with
      | apply f' args' m' =>
        rw [Expr.bare, Expr.bare, bareArguments_eq_map, bareArguments_eq_map, List.map_map] at hb
        obtain ⟨hfun, hargs, -⟩ := Expr.apply.inj hb
        show Argument.mk .positional f'.bare :: args'.map Argument.bare = _
        rw [hfun, hargs]
        rfl
      | _ => cases hsame.trans hap
    | _ => cases hap

theorem keeps_arguments {e : Expr} (hk : e.All Expr.Keeps) :
    ∀ label x, .mk label x ∈ Message.arguments e → x.All Expr.Keeps := by
  intro label x hx
  cases e with
  | apply f args m =>
    obtain ⟨-, hf, ha⟩ := Expr.all_apply.mp hk
    rcases List.mem_cons.mp hx with hx | hx
    · cases hx
      exact hf
    · exact ha _ hx
  | _ =>
    cases List.mem_singleton.mp hx
    exact hk

/-- The code of a message and that of its copy are alike. -/
theorem alike_expand {depth : Nat} (hs : (Setting.standard.siteWithin depth).Copies)
    {payload payload' : Option Expr} (h : (Expr.extension "message" payload l).IsReadable)
    (h' : (Expr.extension "message" payload' l').IsReadable)
    (hk : (Expr.extension "message" payload l).All Expr.Keeps)
    (hb : (Expr.extension "message" payload' l').bare =
      (Expr.extension "message" payload l).flatten.bare) {code : Expr}
    (hcode : Message.expand .standard l payload = .ok code) :
    ∃ code', Message.expand .standard l' payload' = .ok code' ∧
      code.Alike (Setting.standard.siteWithin depth) code' := by
  cases payload with
  | none =>
    cases payload' with
    | some e' => cases hb
    | none =>
      cases hcode
      exact ⟨_, rfl, alike_call (alike_identifier "Sexp.List") (alike_list .nil)⟩
  | some e =>
    cases payload' with
    | none => cases hb
    | some e' =>
      cases h with
      | payload _ he =>
        cases h' with
        | payload _ he' =>
          obtain ⟨hkeeps, hk⟩ := Expr.all_extension.mp hk
          have hbare : e'.bare = e.flatten.bare := Option.some.inj (Expr.extension.inj hb).2.1
          have hargs := Message.arguments_of_bare
            (fun f args m heq => hkeeps.2 f args m rfl (heq ▸ rfl)) hbare
          simp only [Message.expand, Message.assemble] at hcode ⊢
          cases hm : (Message.arguments e).mapM (Argument.contribution .standard) with
          | error err =>
            rw [hm] at hcode
            cases hcode
          | ok items =>
            rw [hm] at hcode
            cases hcode
            obtain ⟨items', hm', halike⟩ := forall₂_alike_contributions hs
              (isReadable_arguments he) (isReadable_arguments he') (keeps_arguments hk) hargs hm
            rw [hm']
            exact ⟨_, rfl, alike_assemble halike⟩

end

/-- Uses of extensions are alike to their copies, however often expansions may follow one
another. -/
theorem Setting.copies_siteWithin (depth : Nat) : (Setting.standard.siteWithin depth).Copies := by
  induction depth with
  | zero => exact fun _ _ _ _ _ _ _ _ _ hf => by cases hf
  | succ depth ih =>
    intro name payload payload' l l' h h' hk hb hf
    simp only [Expr.replaceExtensions, siteWithin, site] at hf ⊢
    cases hx : standard.registry.find? name with
    | none =>
      simp only [hx] at hf
      cases hf
    | some x =>
      simp only [hx] at hf ⊢
      rcases Registry.find?_standard hx with ⟨rfl, rfl⟩ | ⟨rfl, rfl⟩
      · cases hcode : Message.expand .standard l payload with
        | error failure =>
          have herr : Registry.message.expand standard.conventions l payload = .error failure :=
            hcode
          simp only [herr] at hf
          cases hf
        | ok code =>
          obtain ⟨code', hcode', halike⟩ := alike_expand ih h h' hk hb hcode
          have hok : Registry.message.expand standard.conventions l payload = .ok code := hcode
          have hok' : Registry.message.expand standard.conventions l' payload' = .ok code' :=
            hcode'
          simp only [hok, hok'] at hf ⊢
          exact halike hf
      · exact absurd rfl hk.self.1

end MessageLang
