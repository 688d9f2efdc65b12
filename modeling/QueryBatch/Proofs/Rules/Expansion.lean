import QueryBatch.Proofs.Document.Traversal
import QueryBatch.Proofs.Rules.Embedding

/-!
# Expansion inside a larger context

* `Agree`: two expansions find the same fields, those of the larger context under other owners, and meet the same
  spreads.
* `Context.Embeds.expand`: a selection set of the small context is expanded alike in both.
* `grouped_map`: fields with the same response keys fall into the same groups.
-/

namespace QueryBatch.Rules

/-! ## Placed fields -/

namespace Placed

/-- A field whose definition has another owner. -/
def renamed (rename : Owner → Owner) (p : Placed) : Placed := { p with subject := p.subject.renamed rename }

@[simp] theorem responseKey_renamed (rename : Owner → Owner) (p : Placed) :
    (p.renamed rename).responseKey = p.responseKey := rfl

/-- A context knows the fragments that are spread below a field. -/
def Covered (cx : Context) (p : Placed) : Prop := ∀ set, p.body = some set → cx.Covers set.spreads

end Placed

/-! ## Expansion -/

/-- An expansion from `seen` and one of a larger context agree. -/
structure Agree (part : Context) (rename : Owner → Owner) (seen : List String) (e e' : Expanded) : Prop where
  fields : e'.1 = e.1.map (Placed.renamed rename)
  met : e'.2 = e.2
  seen : seen ⊆ e.2
  covered : ∀ p ∈ e.1, p.Covered part

section Agree

variable {part whole : Context} {rename : Owner → Owner} {seen seen' : List String}

theorem agree_nil (h : seen ⊆ seen') : Agree part rename seen ([], seen') ([], seen') :=
  ⟨rfl, rfl, h, fun _ h => absurd h List.not_mem_nil⟩

theorem agree_singleton {p : Placed} (hp : p.Covered part) :
    Agree part rename seen ([p], seen) ([p.renamed rename], seen) := by
  refine ⟨rfl, rfl, List.Subset.refl _, fun q hq => ?_⟩
  cases List.mem_singleton.1 hq
  exact hp

/-- An expansion goes on where another one ended. -/
theorem Agree.append {e e' more more' : Expanded} (h : Agree part rename seen e e')
    (h' : Agree part rename e.2 more more') :
    Agree part rename seen (e.1 ++ more.1, more.2) (e'.1 ++ more'.1, more'.2) := by
  constructor
  · rw [h.fields, h'.fields, List.map_append]
  · exact h'.met
  · exact List.Subset.trans h.seen h'.seen
  · intro p hp
    rcases List.mem_append.1 hp with hp | hp
    · exact h.covered p hp
    · exact h'.covered p hp

/-- Two ways to follow spreads agree, as long as fewer than `room` names are left to meet. -/
def FollowAlike (part : Context) (rename : Owner → Owner) (room : Nat)
    (follow follow' : Spread → List String → Expanded) : Prop :=
  ∀ spread seen, spread.name.text ∈ part.names → unseen part.names seen < room →
    Agree part rename seen (follow spread seen) (follow' spread seen)

variable {schema : Schema} {room : Nat} {follow follow' : Spread → List String → Expanded} {s : Subject}

theorem expandSelections_cons (parent : Option TypeDef) (selection : Selection) (rest : List Selection)
    (seen : List String) :
    expandSelections schema follow s parent (selection :: rest) seen =
      ((expandSelection schema follow s parent selection seen).1 ++
          (expandSelections schema follow s parent rest (expandSelection schema follow s parent selection seen).2).1,
        (expandSelections schema follow s parent rest (expandSelection schema follow s parent selection seen).2).2) :=
  rfl

mutual

theorem agree_expandSelection (hf : FollowAlike part rename room follow follow') (parent : Option TypeDef) :
    ∀ (selection : Selection) (seen : List String), part.Covers selection.spreads → unseen part.names seen < room →
      Agree part rename seen (expandSelection schema follow s parent selection seen)
        (expandSelection schema follow' (s.renamed rename) parent selection seen)
  | .field _, _, _, _ => agree_singleton fun _ h => nomatch h
  | .group _ _ _, _, hc, _ => agree_singleton fun _ h => by
    cases h
    rw [SelectionSet.spreads_eq]
    exact hc
  | .spread spread, seen, hc, hr => hf spread seen (hc spread (List.mem_singleton_self spread)) hr
  | .inline i selections _, seen, hc, hr =>
    agree_expandSelections hf (inlineType? schema parent i) selections seen hc hr

theorem agree_expandSelections (hf : FollowAlike part rename room follow follow') (parent : Option TypeDef) :
    ∀ (selections : List Selection) (seen : List String), part.Covers (Selection.spreadsIn selections) →
      unseen part.names seen < room →
      Agree part rename seen (expandSelections schema follow s parent selections seen)
        (expandSelections schema follow' (s.renamed rename) parent selections seen)
  | [], _, _, _ => agree_nil (List.Subset.refl _)
  | selection :: rest, seen, hc, hr => by
    have hfirst := agree_expandSelection hf parent selection seen
      (fun spread hs => hc spread (List.mem_append_left _ hs)) hr
    have hrest := agree_expandSelections hf parent rest (expandSelection schema follow s parent selection seen).2
      (fun spread hs => hc spread (List.mem_append_right _ hs)) (Nat.lt_of_le_of_lt (unseen_mono hfirst.seen) hr)
    rw [expandSelections_cons, expandSelections_cons, hfirst.met]
    exact hfirst.append hrest

end

/-- Spreads of the small context are followed alike. -/
theorem Context.Embeds.followAlike (h : part.Embeds whole rename) (room room' : Nat) (hle : room ≤ room') :
    FollowAlike part rename room (part.expandSpread room) (whole.expandSpread room') := by
  induction room generalizing room' with
  | zero => exact fun _ _ _ hr => absurd hr (Nat.not_lt_zero _)
  | succ room ih =>
    obtain ⟨room', rfl⟩ : ∃ n, room' = n + 1 := ⟨room' - 1, by omega⟩
    intro spread seen hname hr
    rw [expandSpread, expandSpread]
    split
    · exact agree_nil (List.Subset.refl _)
    · rename_i hnew
      obtain ⟨s, frag, hpart, hwhole, hcovers⟩ := h.fragment? hname
      rw [hpart, hwhole]
      dsimp only
      have hlt : unseen part.names (spread.name.text :: seen) < unseen part.names seen :=
        unseen_lt (List.subset_cons_self _ _) hname hnew List.mem_cons_self
      have hbody := @agree_expandSelections part rename part.schema room _ _ s (ih room' (by omega))
        (part.type? frag.condition.text) frag.body.selections (spread.name.text :: seen)
        (by rwa [SelectionSet.spreads_eq] at hcovers) (by omega)
      have htype : whole.type? frag.condition.text = part.type? frag.condition.text := by
        unfold type?
        rw [h.schema]
      rw [htype, ← h.schema]
      exact ⟨hbody.fields, hbody.met, List.Subset.trans (List.subset_cons_self _ _) hbody.seen, hbody.covered⟩

/-- A selection set of the small context is expanded alike. -/
theorem Context.Embeds.expand (h : part.Embeds whole rename) (s : Subject) (parent : Option TypeDef)
    {set : SelectionSet} (hset : part.Covers set.spreads) (seen : List String) :
    Agree part rename seen (part.expand s parent set seen) (whole.expand (s.renamed rename) parent set seen) := by
  have hroom : unseen part.names seen < part.fragments.length + 1 := Nat.lt_succ_of_le (part.unseen_names_le seen)
  rw [SelectionSet.spreads_eq] at hset
  unfold Context.expand
  rw [← h.schema]
  exact agree_expandSelections (h.followAlike _ _ (Nat.succ_le_succ h.fragments_length_le)) parent _ seen hset hroom

end Agree

/-! ## Groups -/

theorem grouped_map {f : Placed → Placed} (hf : ∀ p, (f p).responseKey = p.responseKey) (fields : List Placed) :
    grouped (fields.map f) = (grouped fields).map (Prod.map id (List.map f)) := by
  have hkey : Placed.responseKey ∘ f = Placed.responseKey := funext hf
  unfold grouped
  rw [List.map_map, List.map_map, hkey]
  refine List.map_congr_left fun key _ => ?_
  rw [Function.comp_apply, List.filter_map]
  simp only [Function.comp_def, hf]
  rfl

end QueryBatch.Rules
