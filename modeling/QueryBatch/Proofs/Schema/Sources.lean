import QueryBatch.Parse.SchemaText
import QueryBatch.Proofs.Schema.Built
import QueryBatch.Proofs.Schema.Entries
import QueryBatch.Schema.Json

/-!
# Where schemas come from

A schema is put together by calls to a builder, read from a text, or read from JSON. Both readers do no more than add
parts to a new builder.

* `Builder.Made.foldlM`: a builder stays one that adding parts leads to as long as each step does.
* `Parse.made_schemaDefinitions`: so it does along a text.
* `Schema.isBuilt_of_ofText`, `Schema.isBuilt_of_ofJson`: a schema that is read is one that was built.
* `Schema.IsGiven`: a schema of any origin.
-/

namespace QueryBatch

/-! ## Steps that add parts -/

namespace Builder.Made

variable {b : Builder}

theorem setRoots (h : b.Made) (roots : List (OperationKind × String)) : (b.setRoots roots).Made := by
  induction roots generalizing b with
  | nil => exact h
  | cons root roots ih => exact ih (.root root.1 root.2 h)

theorem foldlM {α ε : Type} {step : Builder → α → Except ε Builder}
    (hstep : ∀ {b a b'}, b.Made → step b a = .ok b' → b'.Made) {as : List α} {b' : Builder} (h : b.Made)
    (hrun : as.foldlM step b = .ok b') : b'.Made := by
  induction as generalizing b with
  | nil =>
    cases hrun
    exact h
  | cons a as ih =>
    rw [List.foldlM_cons, bind_eq_ok] at hrun
    obtain ⟨next, hnext, hrun⟩ := hrun
    exact ih (hstep h hnext) hrun

theorem addTypes (h : b.Made) {types : List TypeDescription} {b' : Builder} (hrun : b.addTypes types = .ok b') :
    b'.Made := by
  refine h.foldlM (fun hb hstep => ?_) hrun
  obtain ⟨type, -, hadd⟩ := bind_eq_ok.1 hstep
  exact .type hb hadd

theorem addDirectives (h : b.Made) {directives : List DirectiveDescription} {b' : Builder}
    (hrun : b.addDirectives directives = .ok b') : b'.Made := by
  refine h.foldlM (fun hb hstep => ?_) hrun
  obtain ⟨directive, -, hadd⟩ := bind_eq_ok.1 hstep
  cases hadd
  exact .directive directive hb

end Builder.Made

/-! ## Texts -/

namespace Parse

variable {room rounds : Nat} {parts parts' : Builder} {c d : Cursor}

/-- Whatever stands in a text, one definition of it adds at most one part, or several roots. -/
theorem made_schemaDefinition (h : parts.Made) (hrun : schemaDefinition room parts c = .ok (.ok parts', d)) :
    parts'.Made := by
  obtain ⟨_, c₁, -, hrun⟩ := bind_eq_ok.1 hrun
  obtain ⟨seen, c₂, -, hrun⟩ := bind_eq_ok.1 hrun
  split at hrun
  · obtain ⟨roots, e, -, hrun⟩ := bind_eq_ok.1 hrun
    cases hrun
    exact h.setRoots roots
  split at hrun
  · obtain ⟨found, e, -, hrun⟩ := bind_eq_ok.1 hrun
    cases found with
    | none =>
      cases hrun
      exact h
    | some directive =>
      cases hrun
      exact .directive directive h
  split at hrun
  · obtain ⟨found, e, -, hrun⟩ := bind_eq_ok.1 hrun
    cases found with
    | none =>
      cases hrun
      exact h
    | some type => exact .type h (congrArg Prod.fst (Except.ok.inj hrun))
  split at hrun
  all_goals
    -- What is no definition is passed over.
    obtain ⟨_, e, -, hrun⟩ := bind_eq_ok.1 hrun
    cases hrun
    exact h

theorem made_schemaDefinitions (h : parts.Made)
    (hrun : schemaDefinitions room rounds parts c = .ok (.ok parts', d)) : parts'.Made := by
  induction rounds generalizing parts c with
  | zero => cases hrun
  | succ rounds ih =>
    obtain ⟨seen, c₁, -, hrun⟩ := bind_eq_ok.1 hrun
    split at hrun
    · cases hrun
      exact h
    · obtain ⟨added, c₂, hadded, hrun⟩ := bind_eq_ok.1 hrun
      cases added with
      | error fault => cases hrun
      | ok next => exact ih (made_schemaDefinition h hadded) hrun

end Parse

theorem ok_of_mapError {ε ε' α : Type} {f : ε → ε'} {r : Except ε α} {a : α} (h : r.mapError f = .ok a) :
    r = .ok a := by
  cases r with
  | error fault => cases h
  | ok a' =>
    cases h
    rfl

namespace Schema

variable {schema : Schema} {text : String}

theorem isBuilt_of_ofText (h : ofText text = .ok schema) : schema.IsBuilt := by
  unfold ofText at h
  dsimp only at h
  split at h
  · cases h
  · rename_i parts final hrun
    split at h
    · obtain ⟨complete, rfl, hbuild⟩ := bind_eq_ok.1 (ok_of_mapError h)
      exact ⟨complete, Parse.made_schemaDefinitions .start hrun, hbuild⟩
    · cases h

/-! ## Descriptions -/

theorem isBuilt_of_description {description : SchemaDescription} (h : description.build = .ok schema) :
    schema.IsBuilt := by
  unfold SchemaDescription.build at h
  dsimp only at h
  rw [← SchemaDescription.setRoots_roots] at h
  obtain ⟨withTypes, htypes, h⟩ := bind_eq_ok.1 h
  obtain ⟨complete, hdirectives, hbuild⟩ := bind_eq_ok.1 h
  have hmade := Builder.Made.start.setRoots description.roots
  exact ⟨complete, (hmade.addTypes htypes).addDirectives hdirectives, hbuild⟩

theorem isBuilt_of_ofJson (h : ofJson text = .ok schema) : schema.IsBuilt := by
  unfold ofJson at h
  split at h
  · exact isBuilt_of_description h
  · cases h

/-! ## Any origin -/

/-- A schema that a builder gives, or that is read from a text or from JSON. -/
inductive IsGiven (schema : Schema) : Prop
  | built : schema.IsBuilt → IsGiven schema
  | text {text : String} : ofText text = .ok schema → IsGiven schema
  | json {text : String} : ofJson text = .ok schema → IsGiven schema

theorem IsGiven.isBuilt (h : schema.IsGiven) : schema.IsBuilt := by
  cases h with
  | built h => exact h
  | text h => exact isBuilt_of_ofText h
  | json h => exact isBuilt_of_ofJson h

end Schema

end QueryBatch
