import QueryBatch.Proofs.Document.Unspanned

/-!
# Documents up to the spans of fields

The spans of fields tell one field of a definition from another one. Here they are renamed, while all other spans are
forgotten.

* `Selection.respanned`, `Definition.respanned`: nodes with other spans at their fields.
* `Selection.fieldSpans`, `Definition.fieldSpans`: the spans of the fields, in the order of the text.
* `Definition.respanned_eq`: of two definitions that are equal up to spans, one has the fields of the other one under
  new spans.
* `Definition.exists_respanned`: there are such spans if no two fields of the first one stand in one place.
-/

namespace QueryBatch

/-! ## Renaming -/

section Respanned

variable (σ : Span → Span)

def Field.respanned (f : Field) : Field := { f.unspanned with span := σ f.span }

@[simp] theorem Field.responseKey_respanned (f : Field) : (f.respanned σ).responseKey = f.responseKey := by
  unfold responseKey respanned unspanned
  cases f.label <;> rfl

mutual

def Selection.respanned : Selection → Selection
  | .field f => .field (f.respanned σ)
  | .group f selections _ => .group (f.respanned σ) (Selection.respannedAll selections) .blank
  | .spread s => .spread s.unspanned
  | .inline i selections _ => .inline i.unspanned (Selection.respannedAll selections) .blank

def Selection.respannedAll : List Selection → List Selection
  | [] => []
  | selection :: rest => selection.respanned :: Selection.respannedAll rest

end

def SelectionSet.respanned (set : SelectionSet) : SelectionSet := ⟨Selection.respannedAll σ set.selections, .blank⟩

def Operation.respanned (op : Operation) : Operation := { op.unspanned with body := op.body.respanned σ }

def Fragment.respanned (frag : Fragment) : Fragment := { frag.unspanned with body := frag.body.respanned σ }

def Definition.respanned : Definition → Definition
  | .operation op => .operation (op.respanned σ)
  | .fragment frag => .fragment (frag.respanned σ)

@[simp] theorem Definition.operation?_respanned (d : Definition) :
    (d.respanned σ).operation? = d.operation?.map (Operation.respanned σ) := by
  cases d <;> rfl

@[simp] theorem Definition.fragment?_respanned (d : Definition) :
    (d.respanned σ).fragment? = d.fragment?.map (Fragment.respanned σ) := by
  cases d <;> rfl

mutual

theorem Selection.spreads_respanned : ∀ s : Selection, (s.respanned σ).spreads = s.spreads.map Spread.unspanned
  | .field _ | .spread _ => rfl
  | .group _ selections _ => by simp only [respanned, spreads, spreadsIn_respanned selections]
  | .inline _ selections _ => by simp only [respanned, spreads, spreadsIn_respanned selections]

theorem Selection.spreadsIn_respanned : ∀ selections : List Selection,
    spreadsIn (respannedAll σ selections) = (spreadsIn selections).map Spread.unspanned
  | [] => rfl
  | selection :: rest => by
    simp only [respannedAll, spreadsIn, spreads_respanned selection, spreadsIn_respanned rest, List.map_append]

end

theorem SelectionSet.spreads_respanned (set : SelectionSet) :
    (set.respanned σ).spreads = set.spreads.map Spread.unspanned := by
  simp only [SelectionSet.spreads_eq]
  exact Selection.spreadsIn_respanned σ set.selections

end Respanned

/-! ## The spans of fields -/

mutual

/-- The spans of the fields in a selection, in the order of the text. -/
def Selection.fieldSpans : Selection → List Span
  | .field f => [f.span]
  | .group f selections _ => f.span :: Selection.fieldSpansIn selections
  | .spread _ => []
  | .inline _ selections _ => Selection.fieldSpansIn selections

def Selection.fieldSpansIn : List Selection → List Span
  | [] => []
  | selection :: rest => selection.fieldSpans ++ Selection.fieldSpansIn rest

end

/-- The spans of the fields in a definition. -/
def Definition.fieldSpans (d : Definition) : List Span := Selection.fieldSpansIn d.body.selections

namespace Selection

mutual

theorem length_fieldSpans_unspanned : ∀ s : Selection, s.unspanned.fieldSpans.length = s.fieldSpans.length
  | .field _ | .spread _ => rfl
  | .group _ selections _ => by
    simp only [unspanned, fieldSpans, List.length_cons, length_fieldSpansIn_unspanned selections]
  | .inline _ selections _ => by simp only [unspanned, fieldSpans, length_fieldSpansIn_unspanned selections]

theorem length_fieldSpansIn_unspanned : ∀ selections : List Selection,
    (fieldSpansIn (unspannedAll selections)).length = (fieldSpansIn selections).length
  | [] => rfl
  | selection :: rest => by
    simp only [unspannedAll, fieldSpansIn, List.length_append, length_fieldSpans_unspanned selection,
      length_fieldSpansIn_unspanned rest]

end

/-- Selections that are equal up to spans have fields equally often. -/
theorem length_fieldSpans_eq {a b : Selection} (h : a.unspanned = b.unspanned) :
    a.fieldSpans.length = b.fieldSpans.length := by
  rw [← a.length_fieldSpans_unspanned, h, b.length_fieldSpans_unspanned]

theorem length_fieldSpansIn_eq {as bs : List Selection} (h : unspannedAll as = unspannedAll bs) :
    (fieldSpansIn as).length = (fieldSpansIn bs).length := by
  rw [← length_fieldSpansIn_unspanned, h, length_fieldSpansIn_unspanned]

end Selection

/-! ## From one text to another -/

section Renaming

variable {σ : Span → Span}

theorem Field.respanned_eq {f g : Field} (h : f.unspanned = g.unspanned) (hspan : σ f.span = g.span) :
    f.respanned σ = g.respanned id := by
  unfold respanned
  rw [h, hspan]
  rfl

mutual

theorem Selection.respanned_eq : ∀ (a b : Selection), a.unspanned = b.unspanned →
    a.fieldSpans.map σ = b.fieldSpans → a.respanned σ = b.respanned id
  | .field f, .field g, h, hspans => by
    simp only [unspanned, Selection.field.injEq] at h
    simp only [fieldSpans, List.map_cons, List.map_nil, List.cons.injEq, and_true] at hspans
    rw [respanned, respanned, Field.respanned_eq h hspans]
  | .group f as _, .group g bs _, h, hspans => by
    simp only [unspanned, Selection.group.injEq, and_true] at h
    simp only [fieldSpans, List.map_cons, List.cons.injEq] at hspans
    rw [respanned, respanned, Field.respanned_eq h.1 hspans.1, respannedAll_eq as bs h.2 hspans.2]
  | .spread _, .spread _, h, _ => h
  | .inline _ as _, .inline _ bs _, h, hspans => by
    simp only [unspanned, Selection.inline.injEq, and_true] at h
    rw [respanned, respanned, h.1, respannedAll_eq as bs h.2 hspans]
  | .field _, .group _ _ _, h, _ | .field _, .spread _, h, _ | .field _, .inline _ _ _, h, _
  | .group _ _ _, .field _, h, _ | .group _ _ _, .spread _, h, _ | .group _ _ _, .inline _ _ _, h, _
  | .spread _, .field _, h, _ | .spread _, .group _ _ _, h, _ | .spread _, .inline _ _ _, h, _
  | .inline _ _ _, .field _, h, _ | .inline _ _ _, .group _ _ _, h, _ | .inline _ _ _, .spread _, h, _ => nomatch h

theorem Selection.respannedAll_eq : ∀ (as bs : List Selection), unspannedAll as = unspannedAll bs →
    (fieldSpansIn as).map σ = fieldSpansIn bs → respannedAll σ as = respannedAll id bs
  | [], [], _, _ => rfl
  | a :: as, b :: bs, h, hspans => by
    simp only [unspannedAll, List.cons.injEq] at h
    rw [fieldSpansIn, fieldSpansIn, List.map_append] at hspans
    obtain ⟨hfirst, hrest⟩ := List.append_inj hspans (by rw [List.length_map, length_fieldSpans_eq h.1])
    rw [respannedAll, respannedAll, Selection.respanned_eq a b h.1 hfirst, respannedAll_eq as bs h.2 hrest]
  | [], _ :: _, h, _ | _ :: _, [], h, _ => nomatch h

end

theorem Definition.respanned_eq {a b : Definition} (h : a.unspanned = b.unspanned)
    (hspans : a.fieldSpans.map σ = b.fieldSpans) : a.respanned σ = b.respanned id := by
  have hbody : a.body.respanned σ = b.body.respanned id := by
    have hselections : a.body.unspanned = b.body.unspanned := by
      have hsame := congrArg Definition.body h
      cases a <;> cases b <;> exact hsame
    unfold SelectionSet.respanned
    rw [Selection.respannedAll_eq a.body.selections b.body.selections (congrArg SelectionSet.selections hselections)
      hspans]
  cases a with
  | operation op =>
    cases b with
    | operation op' =>
      have hop : op.unspanned = op'.unspanned := Definition.operation.inj h
      have hsame : op.body.respanned σ = op'.body.respanned id := hbody
      simp only [respanned, Operation.respanned, hop, hsame]
    | fragment frag => cases h
  | fragment frag =>
    cases b with
    | operation op => cases h
    | fragment frag' =>
      have hfrag : frag.unspanned = frag'.unspanned := Definition.fragment.inj h
      have hsame : frag.body.respanned σ = frag'.body.respanned id := hbody
      simp only [respanned, Fragment.respanned, hfrag, hsame]

end Renaming

/-- Different things can be given any names. -/
theorem exists_map_eq {α β : Type} [DecidableEq α] [Inhabited β] {as : List α} {bs : List β} (hnodup : as.Nodup)
    (hlength : as.length = bs.length) : ∃ f : α → β, as.map f = bs := by
  refine ⟨fun a => bs.getD (as.idxOf a) default, List.ext_getElem (by rw [List.length_map, hlength]) fun i hi hi' => ?_⟩
  rw [List.getElem_map, List.getD_eq_getElem?_getD, hnodup.idxOf_getElem, List.getElem?_eq_getElem hi',
    Option.getD_some]

/-- If no two fields of a definition stand in one place, then a definition that is equal to it up to spans has its
fields under new spans. -/
theorem Definition.exists_respanned {a b : Definition} (h : a.unspanned = b.unspanned) (hnodup : a.fieldSpans.Nodup) :
    ∃ σ, a.respanned σ = b.respanned id := by
  have hlength : a.fieldSpans.length = b.fieldSpans.length := by
    refine Selection.length_fieldSpansIn_eq ?_
    have hsame := congrArg Definition.body h
    cases a <;> cases b <;> exact congrArg SelectionSet.selections hsame
  obtain ⟨σ, hσ⟩ := exists_map_eq hnodup hlength
  exact ⟨σ, respanned_eq h hσ⟩

end QueryBatch
