import Mathlib.Logic.Relation
import QueryBatch.Proofs.Rules.Room

/-!
# Comparisons without a bound

`Context.expand` and `conflictBetween` carry bounds on their depth. The searches behind them need none: they come to an
end by themselves, where spreads go round in a circle too.

* `Context.Collects`: how the fields of selections are collected, with the names of the spreads that are met on the way
  for the first time. `Context.collects_expand`: this comes to an end with the fields of `Context.expand`.
* `Context.Opens`: a comparison that goes on below its two fields. `Context.Calls`: the comparisons that it makes there.
* `Context.Compares`: how two fields are compared. `Context.compares_conflictBetween`: with room enough, this is
  `conflictBetween`.
* `Context.Calls.lt`: a comparison has more left to open than those that it makes, so no chain of them is endless.
* `Context.mem_seen_of_transGen`: what is met by a comparison, those that it leads to leave out.
* `comparisons_end`: all of this for every context.
-/

namespace QueryBatch.Rules

/-! ## Collecting fields -/

/-- The fields of selections of a definition are collected, the spreads of the names in `seen` left out: the fields
found, and the names of the spreads met for the first time, the last one in front. -/
inductive Context.Collects (cx : Context) :
    Subject → Option TypeDef → List Selection → List String → List Placed → List String → Prop
  | nil {s : Subject} {parent : Option TypeDef} {seen : List String} : Collects cx s parent [] seen [] []
  | field {s : Subject} {parent : Option TypeDef} {f : Field} {rest : List Selection} {seen met : List String}
      {fields : List Placed} : Collects cx s parent rest seen fields met →
      Collects cx s parent (.field f :: rest) seen (.under cx.schema s parent f none :: fields) met
  | group {s : Subject} {parent : Option TypeDef} {f : Field} {inner rest : List Selection} {span : Span}
      {seen met : List String} {fields : List Placed} : Collects cx s parent rest seen fields met →
      Collects cx s parent (.group f inner span :: rest) seen
        (.under cx.schema s parent f (some ⟨inner, span⟩) :: fields) met
  | inline {s : Subject} {parent : Option TypeDef} {i : Inline} {inner rest : List Selection} {span : Span}
      {seen met met' : List String} {fields more : List Placed} :
      Collects cx s (inlineType? cx.schema parent i) inner seen fields met →
      Collects cx s parent rest (met ++ seen) more met' →
      Collects cx s parent (.inline i inner span :: rest) seen (fields ++ more) (met' ++ met)
  | again {s : Subject} {parent : Option TypeDef} {spread : Spread} {rest : List Selection} {seen met : List String}
      {fields : List Placed} : spread.name.text ∈ seen → Collects cx s parent rest seen fields met →
      Collects cx s parent (.spread spread :: rest) seen fields met
  | unknown {s : Subject} {parent : Option TypeDef} {spread : Spread} {rest : List Selection} {seen met : List String}
      {fields : List Placed} : spread.name.text ∉ seen → cx.fragment? spread.name.text = none →
      Collects cx s parent rest (spread.name.text :: seen) fields met →
      Collects cx s parent (.spread spread :: rest) seen fields (met ++ [spread.name.text])
  | spread {s inside : Subject} {parent : Option TypeDef} {spread : Spread} {frag : Fragment} {rest : List Selection}
      {seen met met' : List String} {fields more : List Placed} : spread.name.text ∉ seen →
      cx.fragment? spread.name.text = some (inside, frag) →
      Collects cx inside (cx.type? frag.condition.text) frag.body.selections (spread.name.text :: seen) fields met →
      Collects cx s parent rest (met ++ spread.name.text :: seen) more met' →
      Collects cx s parent (.spread spread :: rest) seen (fields ++ more) (met' ++ (met ++ [spread.name.text]))

/-- Names that are not in `seen`, each once. -/
structure FirstMet (seen met : List String) : Prop where
  nodup : met.Nodup
  unseen : ∀ name ∈ met, name ∉ seen

theorem FirstMet.singleton {seen : List String} {name : String} (h : name ∉ seen) : FirstMet seen [name] :=
  ⟨List.nodup_singleton name, List.forall_mem_singleton.2 h⟩

/-- What is met after some names comes in front of them. -/
theorem FirstMet.append {seen met met' : List String} (h : FirstMet seen met) (h' : FirstMet (met ++ seen) met') :
    FirstMet seen (met' ++ met) := by
  have hbehind : ∀ name ∈ met', name ∉ met ∧ name ∉ seen := fun name hname => by
    have hnew := h'.unseen name hname
    rwa [List.mem_append, not_or] at hnew
  exact ⟨h'.nodup.append h.nodup fun name hname => (hbehind name hname).1,
    List.forall_mem_append.2 ⟨fun name hname => (hbehind name hname).2, h.unseen⟩⟩

section Collects

variable {cx : Context} {s : Subject} {parent : Option TypeDef} {selections : List Selection} {seen met : List String}
  {fields : List Placed}

/-- Collecting goes on where the first selection ended. -/
theorem Context.Collects.cons {x : Selection} {rest : List Selection} {met' : List String} {more : List Placed}
    (h : cx.Collects s parent [x] seen fields met) (h' : cx.Collects s parent rest (met ++ seen) more met') :
    cx.Collects s parent (x :: rest) seen (fields ++ more) (met' ++ met) := by
  cases h with
  | field h =>
    cases h
    rw [List.append_nil]
    exact .field h'
  | group h =>
    cases h
    rw [List.append_nil]
    exact .group h'
  | inline hinner h =>
    cases h
    rw [List.append_nil, List.nil_append]
    exact .inline hinner h'
  | again hold h =>
    cases h
    rw [List.append_nil]
    exact .again hold h'
  | unknown hnew hnone h =>
    cases h
    exact .unknown hnew hnone h'
  | spread hnew hfound hinner h =>
    cases h
    rw [List.append_nil, List.nil_append]
    rw [List.nil_append, List.append_assoc, List.singleton_append] at h'
    exact .spread hnew hfound hinner h'

/-- An inline fragment alone. -/
theorem Context.Collects.inlined {i : Inline} {span : Span}
    (h : cx.Collects s (inlineType? cx.schema parent i) selections seen fields met) :
    cx.Collects s parent [.inline i selections span] seen fields met := by
  have halone : cx.Collects s parent [.inline i selections span] seen (fields ++ []) ([] ++ met) := .inline h .nil
  rwa [List.append_nil, List.nil_append] at halone

/-- A spread alone, if its fragment is followed. -/
theorem Context.Collects.followed {inside : Subject} {spread : Spread} {frag : Fragment}
    (hnew : spread.name.text ∉ seen) (hfound : cx.fragment? spread.name.text = some (inside, frag))
    (h : cx.Collects inside (cx.type? frag.condition.text) frag.body.selections (spread.name.text :: seen) fields met) :
    cx.Collects s parent [.spread spread] seen fields (met ++ [spread.name.text]) := by
  have halone : cx.Collects s parent [.spread spread] seen (fields ++ []) ([] ++ (met ++ [spread.name.text])) :=
    .spread hnew hfound h .nil
  rwa [List.append_nil, List.nil_append] at halone

/-- Every name is met for the first time once. -/
theorem Context.Collects.firstMet (h : cx.Collects s parent selections seen fields met) : FirstMet seen met := by
  induction h with
  | nil => exact ⟨.nil, fun _ h => absurd h List.not_mem_nil⟩
  | field _ ih => exact ih
  | group _ ih => exact ih
  | inline _ _ ihinner ih => exact ihinner.append ih
  | again _ _ ih => exact ih
  | unknown hnew _ _ ih => exact (FirstMet.singleton hnew).append ih
  | @spread _ _ _ spread _ _ seen met met' _ _ hnew _ _ _ ihinner ih =>
    have hopened : FirstMet seen (met ++ [spread.name.text]) := (FirstMet.singleton hnew).append ihinner
    refine hopened.append ?_
    rwa [List.append_assoc, List.singleton_append]

/-- What is collected is determined. -/
theorem Context.Collects.unique {fields' : List Placed} {met' : List String}
    (h : cx.Collects s parent selections seen fields met) (h' : cx.Collects s parent selections seen fields' met') :
    fields' = fields ∧ met' = met := by
  induction h generalizing fields' met' with
  | nil =>
    cases h'
    exact ⟨rfl, rfl⟩
  | field _ ih =>
    cases h' with
    | field h' =>
      obtain ⟨rfl, rfl⟩ := ih h'
      exact ⟨rfl, rfl⟩
  | group _ ih =>
    cases h' with
    | group h' =>
      obtain ⟨rfl, rfl⟩ := ih h'
      exact ⟨rfl, rfl⟩
  | inline _ _ ihinner ih =>
    cases h' with
    | inline hinner' h' =>
      obtain ⟨rfl, rfl⟩ := ihinner hinner'
      obtain ⟨rfl, rfl⟩ := ih h'
      exact ⟨rfl, rfl⟩
  | again hold _ ih =>
    cases h' with
    | again _ h' => exact ih h'
    | unknown hnew => exact absurd hold hnew
    | spread hnew => exact absurd hold hnew
  | unknown hnew hnone _ ih =>
    cases h' with
    | again hold => exact absurd hold hnew
    | unknown _ _ h' =>
      obtain ⟨rfl, rfl⟩ := ih h'
      exact ⟨rfl, rfl⟩
    | spread _ hfound =>
      rw [hnone] at hfound
      cases hfound
  | spread hnew hfound _ _ ihinner ih =>
    cases h' with
    | again hold => exact absurd hold hnew
    | unknown _ hnone =>
      rw [hnone] at hfound
      cases hfound
    | spread _ hfound' hinner' h' =>
      rw [hfound] at hfound'
      cases hfound'
      obtain ⟨rfl, rfl⟩ := ihinner hinner'
      obtain ⟨rfl, rfl⟩ := ih h'
      exact ⟨rfl, rfl⟩

/-! ### Expansions -/

/-- An expansion is what is collected. -/
def Context.CollectsAs (cx : Context) (s : Subject) (parent : Option TypeDef) (selections : List Selection)
    (seen : List String) (e : Expanded) : Prop :=
  ∃ met, cx.Collects s parent selections seen e.1 met ∧ e.2 = met ++ seen

/-- A way to follow spreads collects what is behind them, as long as fewer than `room` names are left to meet. -/
def Context.FollowsAll (cx : Context) (room : Nat) (follow : Spread → List String → Expanded) : Prop :=
  ∀ spread seen s parent, unseen cx.names seen < room →
    cx.CollectsAs s parent [.spread spread] seen (follow spread seen)

section Follow

variable {room : Nat} {follow : Spread → List String → Expanded}

mutual

theorem collectsAs_expandSelection (hf : cx.FollowsAll room follow) (s : Subject) (parent : Option TypeDef) :
    ∀ (selection : Selection) (seen : List String), unseen cx.names seen < room →
      cx.CollectsAs s parent [selection] seen (expandSelection cx.schema follow s parent selection seen)
  | .field _, _, _ => ⟨[], .field .nil, rfl⟩
  | .group _ _ _, _, _ => ⟨[], .group .nil, rfl⟩
  | .spread spread, seen, hr => hf spread seen s parent hr
  | .inline i inner _, seen, hr => by
    obtain ⟨met, hinner, hmet⟩ := collectsAs_expandSelections hf s (inlineType? cx.schema parent i) inner seen hr
    exact ⟨met, hinner.inlined, hmet⟩

theorem collectsAs_expandSelections (hf : cx.FollowsAll room follow) (s : Subject) (parent : Option TypeDef) :
    ∀ (selections : List Selection) (seen : List String), unseen cx.names seen < room →
      cx.CollectsAs s parent selections seen (expandSelections cx.schema follow s parent selections seen)
  | [], _, _ => ⟨[], .nil, rfl⟩
  | selection :: rest, seen, hr => by
    obtain ⟨met, hfirst, hmet⟩ := collectsAs_expandSelection hf s parent selection seen hr
    have hless : unseen cx.names (met ++ seen) < room :=
      Nat.lt_of_le_of_lt (unseen_mono (List.subset_append_right met seen)) hr
    obtain ⟨met', hrest, hmet'⟩ := collectsAs_expandSelections hf s parent rest (met ++ seen) hless
    rw [expandSelections_cons, hmet]
    exact ⟨met' ++ met, hfirst.cons hrest, hmet'.trans (List.append_assoc _ _ _).symm⟩

end

end Follow

theorem Context.followsAll (cx : Context) (room : Nat) : cx.FollowsAll room (cx.expandSpread room) := by
  induction room with
  | zero => exact fun _ _ _ _ hr => absurd hr (Nat.not_lt_zero _)
  | succ room ih =>
    intro spread seen s parent hr
    rw [expandSpread]
    split
    · rename_i hold
      exact ⟨[], .again hold .nil, rfl⟩
    · rename_i hnew
      cases hfound : cx.fragment? spread.name.text with
      | none => exact ⟨[spread.name.text], .unknown hnew hfound .nil, rfl⟩
      | some found =>
        obtain ⟨inside, frag⟩ := found
        have hlt : unseen cx.names (spread.name.text :: seen) < unseen cx.names seen :=
          unseen_lt (List.subset_cons_self _ _) (mem_names_of_fragment? hfound) hnew List.mem_cons_self
        obtain ⟨met, hbody, hmet⟩ := collectsAs_expandSelections ih inside (cx.type? frag.condition.text)
          frag.body.selections (spread.name.text :: seen) (by omega)
        exact ⟨_, hbody.followed hnew hfound, by rw [hmet, List.append_assoc, List.singleton_append]⟩

/-- Collecting the fields of a selection set comes to an end with its expansion. -/
theorem Context.collects_expand (cx : Context) (s : Subject) (parent : Option TypeDef) (set : SelectionSet)
    (seen : List String) : cx.CollectsAs s parent set.selections seen (cx.expand s parent set seen) :=
  collectsAs_expandSelections (cx.followsAll _) s parent set.selections seen
    (Nat.lt_succ_of_le (cx.unseen_names_le seen))

end Collects

/-! ## Comparing fields -/

/-- What a comparison of two fields starts from: whether it is exclusive, further up, which of them is asked, and the
names of the spreads met there. -/
structure Comparison where
  exclusive : Bool
  seen : List String
  first : Placed
  second : Placed

/-- The fields below the two fields of a comparison, and the names of the spreads met for the first time on either
side. -/
structure Opened where
  left : List Placed
  right : List Placed
  leftMet : List String
  rightMet : List String

/-- It is exclusive which of the two fields is asked. -/
def Comparison.apart (c : Comparison) : Bool := c.exclusive || exclusiveParents c.first.parent c.second.parent

/-- The comparison of two fields below those of a comparison. -/
def Comparison.below (c : Comparison) (o : Opened) (a b : Placed) : Comparison :=
  ⟨c.apart, (o.leftMet ++ c.seen) ++ (o.rightMet ++ c.seen), a, b⟩

/-- A comparison goes on below its two fields: they are different ones that do not conflict by themselves, and have
selection sets. -/
inductive Context.Opens (cx : Context) (c : Comparison) : Opened → Prop
  | intro {a b : SelectionSet} {o : Opened} : c.first.place ≠ c.second.place →
      headConflict cx.schema c.apart c.first c.second = none → c.first.body = some a → c.second.body = some b →
      cx.Collects c.first.subject (childType? cx.schema c.first.declared) a.selections c.seen o.left o.leftMet →
      cx.Collects c.second.subject (childType? cx.schema c.second.declared) b.selections c.seen o.right o.rightMet →
      Opens cx c o

/-- A comparison makes another one, of two fields below its own that share a response key. -/
inductive Context.Calls (cx : Context) : Comparison → Comparison → Prop
  | intro {c : Comparison} {o : Opened} {x : String × Placed × Placed} : cx.Opens c o →
      x ∈ keyedPairs o.left o.right → Calls cx (c.below o x.2.1 x.2.2) c

/-- What a comparison says, given why fields below do not merge. -/
def verdict (pairs : List (String × Placed × Placed)) (why : Placed → Placed → Option String) : Option String :=
  let reasons := pairs.filterMap fun (key, a, b) =>
    (why a b).map fun reason => "subfields `" ++ key ++ "` conflict because " ++ reason
  if reasons.isEmpty then none else some (" and ".intercalate reasons)

/-- Two fields are compared, to the end: why they do not merge, if they do not. -/
inductive Context.Compares (cx : Context) : Comparison → Option String → Prop
  | same {c : Comparison} : c.first.place = c.second.place → Compares cx c none
  | head {c : Comparison} {reason : String} : c.first.place ≠ c.second.place →
      headConflict cx.schema c.apart c.first c.second = some reason → Compares cx c (some reason)
  | flat {c : Comparison} : c.first.place ≠ c.second.place →
      headConflict cx.schema c.apart c.first c.second = none → c.first.body = none ∨ c.second.body = none →
      Compares cx c none
  | deeper {c : Comparison} {o : Opened} {why : Placed → Placed → Option String} : cx.Opens c o →
      (∀ x ∈ keyedPairs o.left o.right, Compares cx (c.below o x.2.1 x.2.2) (why x.2.1 x.2.2)) →
      Compares cx c (verdict (keyedPairs o.left o.right) why)

section Compares

variable {cx : Context} {c inner outer : Comparison} {o : Opened} {reason : Option String} {name : String}

theorem Context.Opens.differ (h : cx.Opens c o) : c.first.place ≠ c.second.place := by
  obtain ⟨hplace, -⟩ := h
  exact hplace

theorem Context.Opens.headConflict_eq (h : cx.Opens c o) :
    headConflict cx.schema c.apart c.first c.second = none := by
  obtain ⟨-, hhead, -⟩ := h
  exact hhead

theorem Context.Opens.bodies (h : cx.Opens c o) : ¬ (c.first.body = none ∨ c.second.body = none) := by
  obtain ⟨-, -, ha, hb, -, -⟩ := h
  rw [ha, hb]
  rintro (hnone | hnone) <;> cases hnone

theorem Context.Opens.unique {o' : Opened} (h : cx.Opens c o) (h' : cx.Opens c o') : o' = o := by
  obtain ⟨-, -, ha, hb, hleft, hright⟩ := h
  obtain ⟨-, -, ha', hb', hleft', hright'⟩ := h'
  rw [ha] at ha'
  rw [hb] at hb'
  cases ha'
  cases hb'
  obtain ⟨hl, hlm⟩ := hleft.unique hleft'
  obtain ⟨hr, hrm⟩ := hright.unique hright'
  cases o
  cases o'
  simp only at hl hlm hr hrm
  rw [hl, hlm, hr, hrm]

/-- What a comparison finds below its fields is their expansion. -/
theorem Context.opens_expandBelow {a b : SelectionSet} (hplace : c.first.place ≠ c.second.place)
    (hhead : headConflict cx.schema c.apart c.first c.second = none) (ha : c.first.body = some a)
    (hb : c.second.body = some b) :
    ∃ o, cx.Opens c o ∧ expandBelow cx c.first a c.seen = (o.left, o.leftMet ++ c.seen) ∧
      expandBelow cx c.second b c.seen = (o.right, o.rightMet ++ c.seen) := by
  obtain ⟨leftMet, hleft, hl⟩ := cx.collects_expand c.first.subject (childType? cx.schema c.first.declared) a c.seen
  obtain ⟨rightMet, hright, hr⟩ := cx.collects_expand c.second.subject (childType? cx.schema c.second.declared) b c.seen
  exact ⟨⟨_, _, leftMet, rightMet⟩, .intro hplace hhead ha hb hleft hright, Prod.ext rfl hl, Prod.ext rfl hr⟩

/-! ### The end of a comparison -/

/-- A comparison has more left to open than those that it makes. -/
theorem Context.Calls.lt (h : cx.Calls inner outer) :
    inner.first.weight + cx.pool inner.seen < outer.first.weight + cx.pool outer.seen := by
  cases h with
  | @intro outer o x hopens hx =>
    obtain ⟨hplace, hhead, ha, hb, -, -⟩ := id hopens
    obtain ⟨o', hopens', hleft, -⟩ := Context.opens_expandBelow hplace hhead ha hb
    cases hopens.unique hopens'
    obtain ⟨group, hgroup, hfirst, -, -⟩ := mem_keyedPairs.1 hx
    have hfield : x.2.1 ∈ o.left := mem_grouped hgroup hfirst
    have hmet := List.subset_append_left (o.leftMet ++ outer.seen) (o.rightMet ++ outer.seen)
    exact cx.weight_expandBelow_lt ha (by rw [hleft]; exact hfield) (by rw [hleft]; exact hmet)

/-- No chain of comparisons, each made by the one before it, is endless. -/
theorem Context.wellFounded_calls (cx : Context) : WellFounded cx.Calls :=
  Subrelation.wf Context.Calls.lt (measure fun c : Comparison => c.first.weight + cx.pool c.seen).wf

theorem verdict_congr {pairs : List (String × Placed × Placed)} {why why' : Placed → Placed → Option String}
    (h : ∀ x ∈ pairs, why x.2.1 x.2.2 = why' x.2.1 x.2.2) : verdict pairs why = verdict pairs why' := by
  unfold verdict
  rw [List.filterMap_congr fun x hx => congrArg (Option.map _) (h x hx)]

/-- What a comparison says is determined. -/
theorem Context.Compares.unique {reason' : Option String} (h : cx.Compares c reason) (h' : cx.Compares c reason') :
    reason' = reason := by
  induction h generalizing reason' with
  | same hsame =>
    cases h' with
    | same => rfl
    | head hplace => exact absurd hsame hplace
    | flat => rfl
    | deeper hopens => exact absurd hsame hopens.differ
  | head hplace hhead =>
    cases h' with
    | same hsame => exact absurd hsame hplace
    | head _ hhead' => exact hhead'.symm.trans hhead
    | flat _ hnone => exact absurd (hnone.symm.trans hhead) nofun
    | deeper hopens => exact absurd (hopens.headConflict_eq.symm.trans hhead) nofun
  | flat hplace hhead hbody =>
    cases h' with
    | same => rfl
    | head _ hhead' => exact absurd (hhead.symm.trans hhead') nofun
    | flat => rfl
    | deeper hopens => exact absurd hbody hopens.bodies
  | deeper hopens _ ih =>
    cases h' with
    | same hsame => exact absurd hsame hopens.differ
    | head _ hhead => exact absurd (hopens.headConflict_eq.symm.trans hhead) nofun
    | flat _ _ hbody => exact absurd hbody hopens.bodies
    | deeper hopens' hbelow =>
      cases hopens.unique hopens'
      exact verdict_congr fun x hx => ih x hx (hbelow x hx)

/-- With more room than is left to open, a bounded comparison is one to the end. -/
theorem Context.compares_conflictBetween {room : Nat} (h : c.first.weight + cx.pool c.seen < room) :
    cx.Compares c (conflictBetween cx room c.exclusive c.seen c.first c.second) := by
  induction room generalizing c with
  | zero => exact absurd h (Nat.not_lt_zero _)
  | succ room ih =>
    rw [conflictBetween]
    by_cases hplace : c.first.place = c.second.place
    · rw [if_pos hplace]
      exact .same hplace
    rw [if_neg hplace]
    dsimp only
    rw [← Comparison.apart]
    cases hhead : headConflict cx.schema c.apart c.first c.second with
    | some reason => exact .head hplace hhead
    | none =>
      cases ha : c.first.body with
      | none => exact .flat hplace hhead (.inl ha)
      | some a =>
        cases hb : c.second.body with
        | none => exact .flat hplace hhead (.inr hb)
        | some b =>
          obtain ⟨o, hopens, hleft, hright⟩ := Context.opens_expandBelow hplace hhead ha hb
          dsimp only
          rw [hleft, hright]
          -- every comparison below has less left to open, so there is room for it
          refine .deeper hopens fun x hx => ih ?_
          have hless := (Context.Calls.intro hopens hx).lt
          omega

/-! ### Chains of comparisons -/

/-- A comparison expands a name: below its fields it meets a spread of the name for the first time. -/
def Context.Expands (cx : Context) (c : Comparison) (name : String) : Prop :=
  ∃ o, cx.Opens c o ∧ name ∈ o.leftMet ++ o.rightMet

theorem Context.Expands.not_mem_seen (h : cx.Expands c name) : name ∉ c.seen := by
  obtain ⟨o, ⟨-, -, -, -, hleft, hright⟩, hname⟩ := h
  exact (List.mem_append.1 hname).elim (hleft.firstMet.unseen name) (hright.firstMet.unseen name)

/-- What a comparison has met or expands is met for those that it makes. -/
theorem Context.Calls.mem_seen (h : cx.Calls inner outer) (hname : name ∈ outer.seen ∨ cx.Expands outer name) :
    name ∈ inner.seen := by
  obtain ⟨hopens, -⟩ := h
  rcases hname with hname | ⟨o', hopens', hname⟩
  · exact List.mem_append_left _ (List.mem_append_right _ hname)
  · cases hopens.unique hopens'
    rcases List.mem_append.1 hname with hname | hname
    · exact List.mem_append_left _ (List.mem_append_left _ hname)
    · exact List.mem_append_right _ (List.mem_append_left _ hname)

/-- What a comparison has met or expands is met for all that it leads to. -/
theorem Context.mem_seen_of_transGen (h : Relation.TransGen cx.Calls inner outer)
    (hname : name ∈ outer.seen ∨ cx.Expands outer name) : name ∈ inner.seen := by
  induction h with
  | single h => exact h.mem_seen hname
  | tail _ h ih => exact ih (.inl (h.mem_seen hname))

end Compares

/-- The search for conflicts comes to an end, whatever spreads whatever. The fields of every selection set are collected
to the end, and no name is met for the first time twice; no chain of comparisons, each made by the one before it, is
endless; every comparison is made to the end, and those of the fields of a selection set find what the rule finds. And
of two comparisons of which one leads to the other, no name is expanded by both. -/
theorem comparisons_end (cx : Context) :
    (∀ s parent set seen, ∃ met, cx.Collects s parent set.selections seen (cx.expand s parent set seen).1 met ∧
      (cx.expand s parent set seen).2 = met ++ seen ∧ met.Nodup ∧ (∀ name ∈ met, name ∉ seen) ∧
      ∀ fields met', cx.Collects s parent set.selections seen fields met' →
        fields = (cx.expand s parent set seen).1 ∧ met' = met) ∧
    WellFounded cx.Calls ∧ (∀ c, ∃! reason, cx.Compares c reason) ∧
    (∀ s parent set, (s, .selectionSet parent set) ∈ cx.visits → ∀ p ∈ (cx.expand s parent set []).1, ∀ q,
      cx.Compares ⟨false, [], p, q⟩ (conflictBetween cx (comparisonRoom cx) false [] p q)) ∧
    ∀ inner outer, Relation.TransGen cx.Calls inner outer → ∀ name, cx.Expands outer name →
      ¬ cx.Expands inner name := by
  refine ⟨fun s parent set seen => ?_, cx.wellFounded_calls, fun c => ?_, fun s parent set hset p hp q => ?_, ?_⟩
  · obtain ⟨met, hcollects, hmet⟩ := cx.collects_expand s parent set seen
    have hfirst := hcollects.firstMet
    exact ⟨met, hcollects, hmet, hfirst.nodup, hfirst.unseen, fun _ _ h => hcollects.unique h⟩
  · have hends := Context.compares_conflictBetween (Nat.lt_succ_self (c.first.weight + cx.pool c.seen))
    exact ⟨_, hends, fun _ h => hends.unique h⟩
  · exact Context.compares_conflictBetween (Context.weight_lt_comparisonRoom hset hp)
  · exact fun inner outer hchain name houter hinner =>
      hinner.not_mem_seen (Context.mem_seen_of_transGen hchain (.inr houter))

end QueryBatch.Rules
