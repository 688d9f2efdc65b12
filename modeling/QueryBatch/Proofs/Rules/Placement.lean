import QueryBatch.Proofs.Rules.Expansion

/-!
# Full expansions

The full expansion of a selection set puts every fragment in place, as often as it is spread. It is a relation here, and
`Context.expand`, which follows one spread of a name only, is measured by it.

* `Lies`: a selection in a selection set, or in one of its inline fragments.
* `Context.Places`: a field of a full expansion; `Context.Meets`: the name of a spread on the way.
* `Context.Places.mem_expand`: what `Context.expand` leaves out stands behind spreads that were met before.
* `Context.mem_expand_iff`: so with none met before it finds just the fields of the full expansion.
-/

namespace QueryBatch.Rules

/-! ## The relation -/

/-- A selection stands among others, or in an inline fragment among them, with the type that it is asked of. -/
inductive Lies (schema : Schema) : Option TypeDef → List Selection → Option TypeDef → Selection → Prop
  | here {parent : Option TypeDef} {selections : List Selection} {x : Selection} : x ∈ selections →
      Lies schema parent selections parent x
  | inside {parent under : Option TypeDef} {selections inner : List Selection} {i : Inline} {span : Span}
      {x : Selection} : .inline i inner span ∈ selections → Lies schema (inlineType? schema parent i) inner under x →
      Lies schema parent selections under x

/-- The full expansion of selections of a definition holds a field. -/
inductive Context.Places (cx : Context) : Subject → Option TypeDef → List Selection → Placed → Prop
  | field {s : Subject} {parent under : Option TypeDef} {selections : List Selection} {f : Field} :
      Lies cx.schema parent selections under (.field f) →
      Places cx s parent selections (.under cx.schema s under f none)
  | group {s : Subject} {parent under : Option TypeDef} {selections inner : List Selection} {f : Field} {span : Span} :
      Lies cx.schema parent selections under (.group f inner span) →
      Places cx s parent selections (.under cx.schema s under f (some ⟨inner, span⟩))
  | spread {s inside : Subject} {parent under : Option TypeDef} {selections : List Selection} {spread : Spread}
      {frag : Fragment} {p : Placed} : Lies cx.schema parent selections under (.spread spread) →
      cx.fragment? spread.name.text = some (inside, frag) →
      Places cx inside (cx.type? frag.condition.text) frag.body.selections p → Places cx s parent selections p

/-- The full expansion of selections goes through a spread of a name. -/
inductive Context.Meets (cx : Context) : Option TypeDef → List Selection → String → Prop
  | spread {parent under : Option TypeDef} {selections : List Selection} {spread : Spread} :
      Lies cx.schema parent selections under (.spread spread) → Meets cx parent selections spread.name.text
  | through {parent under : Option TypeDef} {selections : List Selection} {spread : Spread} {inside : Subject}
      {frag : Fragment} {name : String} : Lies cx.schema parent selections under (.spread spread) →
      cx.fragment? spread.name.text = some (inside, frag) →
      Meets cx (cx.type? frag.condition.text) frag.body.selections name → Meets cx parent selections name

section Lies

variable {schema : Schema} {parent under : Option TypeDef} {selection x : Selection} {rest : List Selection}

theorem Lies.mono {selections more : List Selection} (h : Lies schema parent selections under x)
    (hsub : selections ⊆ more) : Lies schema parent more under x := by
  cases h with
  | here hmem => exact .here (hsub hmem)
  | inside hmem h => exact .inside (hsub hmem) h

theorem lies_cons : Lies schema parent (selection :: rest) under x ↔
    Lies schema parent [selection] under x ∨ Lies schema parent rest under x := by
  constructor
  · intro h
    cases h with
    | here hmem =>
      rcases List.mem_cons.1 hmem with rfl | hmem
      · exact .inl (.here (List.mem_singleton_self _))
      · exact .inr (.here hmem)
    | inside hmem h =>
      rcases List.mem_cons.1 hmem with rfl | hmem
      · exact .inl (.inside (List.mem_singleton_self _) h)
      · exact .inr (.inside hmem h)
  · rintro (h | h)
    · exact h.mono (by simp)
    · exact h.mono (List.subset_cons_self _ _)

theorem not_lies_nil : ¬ Lies schema parent [] under x := by
  rintro (hmem | ⟨hmem, -⟩) <;> exact absurd hmem List.not_mem_nil

/-- In a selection that is no inline fragment stands nothing but that selection. -/
theorem Lies.eq_of_singleton (h : Lies schema parent [selection] under x)
    (hno : ∀ i inner span, selection ≠ .inline i inner span) : under = parent ∧ x = selection := by
  cases h with
  | here hmem => exact ⟨rfl, List.mem_singleton.1 hmem⟩
  | inside hmem => exact absurd (List.mem_singleton.1 hmem).symm (hno _ _ _)

theorem lies_inline {i : Inline} {inner : List Selection} {span : Span} :
    Lies schema parent [.inline i inner span] under x ↔
      (under = parent ∧ x = .inline i inner span) ∨ Lies schema (inlineType? schema parent i) inner under x := by
  constructor
  · intro h
    cases h with
    | here hmem => exact .inl ⟨rfl, List.mem_singleton.1 hmem⟩
    | inside hmem h =>
      cases List.mem_singleton.1 hmem
      exact .inr h
  · rintro (⟨rfl, rfl⟩ | h)
    · exact .here (List.mem_singleton_self _)
    · exact .inside (List.mem_singleton_self _) h

end Lies

/-! ## What an expansion finds -/

section Found

variable {cx : Context} {s : Subject} {parent : Option TypeDef} {selections : List Selection} {seen : List String}

/-- A selection is in an expansion: the field is found, or the name of the spread is met. -/
def Selection.Shown (schema : Schema) (s : Subject) (under : Option TypeDef) (e : Expanded) : Selection → Prop
  | .field f => .under schema s under f none ∈ e.1
  | .group f inner span => .under schema s under f (some ⟨inner, span⟩) ∈ e.1
  | .spread spread => spread.name.text ∈ e.2
  | .inline _ _ _ => True

/-- All of the selections are in an expansion. -/
def Shows (schema : Schema) (s : Subject) (parent : Option TypeDef) (selections : List Selection) (e : Expanded) :
    Prop :=
  ∀ under x, Lies schema parent selections under x → Selection.Shown schema s under e x

/-- An expansion from `seen` has the fragments in it of which it has met the name. -/
structure Context.Finishes (cx : Context) (seen : List String) (e : Expanded) : Prop where
  kept : seen ⊆ e.2
  bodies : ∀ name ∈ e.2, name ∉ seen → ∀ s frag, cx.fragment? name = some (s, frag) →
    Shows cx.schema s (cx.type? frag.condition.text) frag.body.selections e

theorem Shows.mono {schema : Schema} {e e' : Expanded} (h : Shows schema s parent selections e) (hfields : e.1 ⊆ e'.1)
    (hmet : e.2 ⊆ e'.2) : Shows schema s parent selections e' := by
  intro under x hx
  have hshown := h under x hx
  cases x with
  | field f => exact hfields hshown
  | group f inner span => exact hfields hshown
  | spread spread => exact hmet hshown
  | inline i inner span => trivial

theorem Shows.cons {schema : Schema} {e : Expanded} {selection : Selection} {rest : List Selection}
    (h : Shows schema s parent [selection] e) (h' : Shows schema s parent rest e) :
    Shows schema s parent (selection :: rest) e := fun under x hx =>
  (lies_cons.1 hx).elim (h under x) (h' under x)

theorem Context.Finishes.refl : cx.Finishes seen ([], seen) :=
  ⟨List.Subset.refl _, fun _ hname hnew => absurd hname hnew⟩

/-- An expansion goes on where another one ended. -/
theorem Context.Finishes.append {e more : Expanded} (h : cx.Finishes seen e) (h' : cx.Finishes e.2 more) :
    cx.Finishes seen (e.1 ++ more.1, more.2) := by
  refine ⟨List.Subset.trans h.kept h'.kept, fun name hname hnew s frag hfound => ?_⟩
  by_cases hmet : name ∈ e.2
  · exact (h.bodies name hmet hnew s frag hfound).mono (List.subset_append_left _ _) h'.kept
  · exact (h'.bodies name hname hmet s frag hfound).mono (List.subset_append_right _ _) (List.Subset.refl _)

/-- A way to follow spreads finishes what it begins, as long as fewer than `room` names are left to meet. -/
def Context.FollowsFully (cx : Context) (room : Nat) (follow : Spread → List String → Expanded) : Prop :=
  ∀ spread seen, unseen cx.names seen < room →
    cx.Finishes seen (follow spread seen) ∧ spread.name.text ∈ (follow spread seen).2

section Follow

variable {room : Nat} {follow : Spread → List String → Expanded}

mutual

theorem finishes_expandSelection (hf : cx.FollowsFully room follow) (s : Subject) (parent : Option TypeDef) :
    ∀ (selection : Selection) (seen : List String), unseen cx.names seen < room →
      cx.Finishes seen (expandSelection cx.schema follow s parent selection seen) ∧
        Shows cx.schema s parent [selection] (expandSelection cx.schema follow s parent selection seen)
  | .field f, seen, _ => by
    refine ⟨⟨List.Subset.refl _, fun _ hname hnew => absurd hname hnew⟩, fun under x hx => ?_⟩
    obtain ⟨rfl, rfl⟩ := hx.eq_of_singleton nofun
    exact List.mem_singleton_self _
  | .group f inner span, seen, _ => by
    refine ⟨⟨List.Subset.refl _, fun _ hname hnew => absurd hname hnew⟩, fun under x hx => ?_⟩
    obtain ⟨rfl, rfl⟩ := hx.eq_of_singleton nofun
    exact List.mem_singleton_self _
  | .spread spread, seen, hr => by
    obtain ⟨hfinishes, hmet⟩ := hf spread seen hr
    refine ⟨hfinishes, fun under x hx => ?_⟩
    obtain ⟨rfl, rfl⟩ := hx.eq_of_singleton nofun
    exact hmet
  | .inline i inner span, seen, hr => by
    obtain ⟨hfinishes, hshows⟩ := finishes_expandSelections hf s (inlineType? cx.schema parent i) inner seen hr
    refine ⟨hfinishes, fun under x hx => ?_⟩
    rcases lies_inline.1 hx with ⟨rfl, rfl⟩ | hx
    · trivial
    · exact hshows under x hx

theorem finishes_expandSelections (hf : cx.FollowsFully room follow) (s : Subject) (parent : Option TypeDef) :
    ∀ (selections : List Selection) (seen : List String), unseen cx.names seen < room →
      cx.Finishes seen (expandSelections cx.schema follow s parent selections seen) ∧
        Shows cx.schema s parent selections (expandSelections cx.schema follow s parent selections seen)
  | [], seen, _ => ⟨.refl, fun _ _ hx => absurd hx not_lies_nil⟩
  | selection :: rest, seen, hr => by
    obtain ⟨hfirst, hshows⟩ := finishes_expandSelection hf s parent selection seen hr
    obtain ⟨hrest, hmore⟩ := finishes_expandSelections hf s parent rest
      (expandSelection cx.schema follow s parent selection seen).2 (Nat.lt_of_le_of_lt (unseen_mono hfirst.kept) hr)
    rw [expandSelections_cons]
    exact ⟨hfirst.append hrest, .cons (hshows.mono (List.subset_append_left _ _) hrest.kept)
      (hmore.mono (List.subset_append_right _ _) (List.Subset.refl _))⟩

end

end Follow

/-- Spreads are followed to the end. The body of a fragment is in the expansion once its name is met. -/
theorem Context.followsFully (cx : Context) (room : Nat) : cx.FollowsFully room (cx.expandSpread room) := by
  induction room with
  | zero => exact fun _ _ hr => absurd hr (Nat.not_lt_zero _)
  | succ room ih =>
    intro spread seen hr
    rw [expandSpread]
    split
    · rename_i hold
      exact ⟨.refl, hold⟩
    · rename_i hnew
      cases hfound : cx.fragment? spread.name.text with
      | none =>
        refine ⟨⟨List.subset_cons_self _ _, fun name hname hnot s frag hsome => ?_⟩, List.mem_cons_self⟩
        rcases List.mem_cons.1 hname with rfl | hname
        · rw [hfound] at hsome
          cases hsome
        · exact absurd hname hnot
      | some found =>
        obtain ⟨inside, frag⟩ := found
        have hlt : unseen cx.names (spread.name.text :: seen) < unseen cx.names seen :=
          unseen_lt (List.subset_cons_self _ _) (mem_names_of_fragment? hfound) hnew List.mem_cons_self
        obtain ⟨hbody, hshows⟩ := finishes_expandSelections ih inside (cx.type? frag.condition.text)
          frag.body.selections (spread.name.text :: seen) (by omega)
        refine ⟨⟨List.Subset.trans (List.subset_cons_self _ _) hbody.kept, fun name hname hnot s frag' hsome => ?_⟩,
          hbody.kept List.mem_cons_self⟩
        by_cases hsame : name = spread.name.text
        · subst hsame
          rw [hfound] at hsome
          cases hsome
          exact hshows
        · exact hbody.bodies name hname (by simp [hsame, hnot]) s frag' hsome

/-- An expansion that has all of some selections in it has all fields of their full expansion, but for those behind
spreads that were met before. -/
theorem Context.Places.mem_of_shows {p : Placed} {e : Expanded} (h : cx.Places s parent selections p)
    (hfinishes : cx.Finishes seen e) (hshows : Shows cx.schema s parent selections e)
    (hnew : ∀ name, cx.Meets parent selections name → name ∉ seen) : p ∈ e.1 := by
  induction h with
  | field hx => exact hshows _ _ hx
  | group hx => exact hshows _ _ hx
  | spread hx hfound _ ih =>
    refine ih ?_ fun name hname => hnew name (.through hx hfound hname)
    exact hfinishes.bodies _ (hshows _ _ hx) (hnew _ (.spread hx)) _ _ hfound

/-- An expansion finds every field of the full expansion, but for those behind spreads that were met before. -/
theorem Context.Places.mem_expand {set : SelectionSet} {p : Placed} (h : cx.Places s parent set.selections p)
    (hnew : ∀ name, cx.Meets parent set.selections name → name ∉ seen) : p ∈ (cx.expand s parent set seen).1 := by
  have hroom : unseen cx.names seen < cx.fragments.length + 1 := Nat.lt_succ_of_le (cx.unseen_names_le seen)
  obtain ⟨hfinishes, hshows⟩ := finishes_expandSelections (cx.followsFully _) s parent set.selections seen hroom
  exact h.mem_of_shows hfinishes hshows hnew

end Found

/-! ## What an expansion is made of -/

section Sound

variable {cx : Context} {s : Subject} {parent : Option TypeDef}

/-- An expansion from `seen` holds fields of the full expansion, and names that it met. -/
structure Context.Stays (cx : Context) (s : Subject) (parent : Option TypeDef) (selections : List Selection)
    (seen : List String) (e : Expanded) : Prop where
  fields : ∀ p ∈ e.1, cx.Places s parent selections p
  met : ∀ name ∈ e.2, name ∈ seen ∨ cx.Meets parent selections name

/-- A way to follow spreads holds what the full expansion of the fragment holds. -/
def Context.FollowsSoundly (cx : Context) (follow : Spread → List String → Expanded) : Prop :=
  ∀ spread seen s parent, cx.Stays s parent [.spread spread] seen (follow spread seen)

theorem Context.Places.mono {selections more : List Selection} {p : Placed} (h : cx.Places s parent selections p)
    (hsub : selections ⊆ more) : cx.Places s parent more p := by
  cases h with
  | field hx => exact .field (hx.mono hsub)
  | group hx => exact .group (hx.mono hsub)
  | spread hx hfound h => exact .spread (hx.mono hsub) hfound h

theorem Context.Meets.mono {selections more : List Selection} {name : String} (h : cx.Meets parent selections name)
    (hsub : selections ⊆ more) : cx.Meets parent more name := by
  cases h with
  | spread hx => exact .spread (hx.mono hsub)
  | through hx hfound h => exact .through (hx.mono hsub) hfound h

theorem Context.Places.inline {i : Inline} {inner : List Selection} {span : Span} {p : Placed}
    (h : cx.Places s (inlineType? cx.schema parent i) inner p) : cx.Places s parent [.inline i inner span] p := by
  have hmem : Selection.inline i inner span ∈ [Selection.inline i inner span] := List.mem_singleton_self _
  cases h with
  | field hx => exact .field (.inside hmem hx)
  | group hx => exact .group (.inside hmem hx)
  | spread hx hfound h => exact .spread (.inside hmem hx) hfound h

theorem Context.Meets.inline {i : Inline} {inner : List Selection} {span : Span} {name : String}
    (h : cx.Meets (inlineType? cx.schema parent i) inner name) : cx.Meets parent [.inline i inner span] name := by
  have hmem : Selection.inline i inner span ∈ [Selection.inline i inner span] := List.mem_singleton_self _
  cases h with
  | spread hx => exact .spread (.inside hmem hx)
  | through hx hfound h => exact .through (.inside hmem hx) hfound h

section Follow

variable {follow : Spread → List String → Expanded}

mutual

theorem stays_expandSelection (hf : cx.FollowsSoundly follow) (s : Subject) (parent : Option TypeDef) :
    ∀ (selection : Selection) (seen : List String),
      cx.Stays s parent [selection] seen (expandSelection cx.schema follow s parent selection seen)
  | .field f, seen => by
    refine ⟨fun p hp => ?_, fun _ h => .inl h⟩
    cases List.mem_singleton.1 hp
    exact .field (.here (List.mem_singleton_self _))
  | .group f inner span, seen => by
    refine ⟨fun p hp => ?_, fun _ h => .inl h⟩
    cases List.mem_singleton.1 hp
    exact .group (.here (List.mem_singleton_self _))
  | .spread spread, seen => hf spread seen s parent
  | .inline i inner span, seen => by
    have h := stays_expandSelections hf s (inlineType? cx.schema parent i) inner seen
    exact ⟨fun p hp => (h.fields p hp).inline, fun name hname => (h.met name hname).imp_right .inline⟩

theorem stays_expandSelections (hf : cx.FollowsSoundly follow) (s : Subject) (parent : Option TypeDef) :
    ∀ (selections : List Selection) (seen : List String),
      cx.Stays s parent selections seen (expandSelections cx.schema follow s parent selections seen)
  | [], seen => ⟨fun _ h => absurd h List.not_mem_nil, fun _ h => .inl h⟩
  | selection :: rest, seen => by
    have hfirst := stays_expandSelection hf s parent selection seen
    have hrest := stays_expandSelections hf s parent rest (expandSelection cx.schema follow s parent selection seen).2
    have hone : [selection] ⊆ selection :: rest := by simp
    have hmore : rest ⊆ selection :: rest := List.subset_cons_self _ _
    rw [expandSelections_cons]
    constructor
    · intro p hp
      rcases List.mem_append.1 hp with hp | hp
      · exact (hfirst.fields p hp).mono hone
      · exact (hrest.fields p hp).mono hmore
    · intro name hname
      rcases hrest.met name hname with hname | hname
      · exact (hfirst.met name hname).imp_right fun h => h.mono hone
      · exact .inr (hname.mono hmore)

end

end Follow

theorem Context.followsSoundly (cx : Context) (room : Nat) : cx.FollowsSoundly (cx.expandSpread room) := by
  induction room with
  | zero => exact fun _ _ _ _ => ⟨fun _ h => absurd h List.not_mem_nil, fun _ h => .inl h⟩
  | succ room ih =>
    intro spread seen s parent
    have hlies : Lies cx.schema parent [.spread spread] parent (.spread spread) := .here (List.mem_singleton_self _)
    have hself : ∀ name ∈ spread.name.text :: seen, name ∈ seen ∨ cx.Meets parent [.spread spread] name := by
      intro name hname
      rcases List.mem_cons.1 hname with rfl | hname
      · exact .inr (.spread hlies)
      · exact .inl hname
    rw [expandSpread]
    split
    · exact ⟨fun _ h => absurd h List.not_mem_nil, fun _ h => .inl h⟩
    · cases hfound : cx.fragment? spread.name.text with
      | none => exact ⟨fun _ h => absurd h List.not_mem_nil, hself⟩
      | some found =>
        obtain ⟨inside, frag⟩ := found
        have hbody := stays_expandSelections ih inside (cx.type? frag.condition.text) frag.body.selections
          (spread.name.text :: seen)
        refine ⟨fun p hp => .spread hlies hfound (hbody.fields p hp), fun name hname => ?_⟩
        exact (hbody.met name hname).elim (hself name) fun h => .inr (.through hlies hfound h)

/-- An expansion finds fields of the full expansion only, and meets the names that this goes through. -/
theorem Context.stays_expand (cx : Context) (s : Subject) (parent : Option TypeDef) (set : SelectionSet)
    (seen : List String) : cx.Stays s parent set.selections seen (cx.expand s parent set seen) :=
  stays_expandSelections (cx.followsSoundly _) s parent set.selections seen

/-- If no spreads were met before, an expansion finds just the fields of the full expansion. -/
theorem Context.mem_expand_iff {set : SelectionSet} {p : Placed} :
    p ∈ (cx.expand s parent set []).1 ↔ cx.Places s parent set.selections p :=
  ⟨(cx.stays_expand s parent set []).fields p, fun h => h.mem_expand fun _ _ => List.not_mem_nil⟩

end Sound

end QueryBatch.Rules
