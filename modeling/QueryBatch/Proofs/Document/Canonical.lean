import QueryBatch.Proofs.Document.Lexemes

/-!
# Lexemes up to spelling

A document can be spelled in several ways: a string in many forms, an anonymous query with or without its keyword. And
parentheses with nothing in them are read as if they were not there.

* `Lexeme.decoded`: a lexeme whose string is decoded.
* `withoutKeyword`: lexemes without the keywords of the anonymous queries that have only a selection set.
* `canonical`: both. `Document.canonical_lexemes`: a printed document has no such keyword.
* `withoutEmptyParens`: lexemes without the parentheses that hold nothing. `canonical_withoutEmptyParens_eq_iff`: if
  there are such parentheses, leaving them out is more than a matter of spelling.
* `Becomes`: what a map of lexemes does to a part of them, whatever follows.
* `Written`, `Opens`: what lexemes become that spell a node, inside a definition and at its start.
-/

namespace QueryBatch

/-! ## Strings -/

/-- A lexeme whose string, quoted or in a block, is decoded. A string that cannot be decoded stays. -/
def Lexeme.decoded (x : Lexeme) : Lexeme :=
  match x.kind with
  | .string =>
    match Text.Quoted.unquote x.text with
    | .ok content => ⟨.string, content⟩
    | .error _ => x
  | .blockString => ⟨.string, Text.BlockString.value x.text⟩
  | _ => x

theorem Lexeme.decoded_of_kind {x : Lexeme} (h : x.kind ≠ .string) (h' : x.kind ≠ .blockString) : x.decoded = x := by
  unfold decoded
  split
  · rename_i hk
    exact absurd hk h
  · rename_i hk
    exact absurd hk h'
  · rfl

/-- Decoding makes strings of strings alone. -/
theorem Lexeme.kind_decoded (x : Lexeme) : x.decoded.kind = if x.kind = .blockString then .string else x.kind := by
  unfold decoded
  split
  · rename_i hk
    rw [if_neg (by rw [hk]; decide)]
    split
    · exact hk.symm
    · rfl
  · rename_i hk
    rw [if_pos hk]
  · rename_i hk hk'
    rw [if_neg hk']

/-! ## Parts -/

/-- What a map of lexemes makes of a part of them, whatever follows. -/
def Becomes (f : List Lexeme → List Lexeme) (ls out : List Lexeme) : Prop := ∀ more, f (ls ++ more) = out ++ f more

namespace Becomes

variable {f : List Lexeme → List Lexeme} {ls ls' out out' : List Lexeme}

theorem nil : Becomes f [] [] := fun _ => rfl

theorem append (h : Becomes f ls out) (h' : Becomes f ls' out') : Becomes f (ls ++ ls') (out ++ out') := fun more => by
  rw [List.append_assoc, h, h', List.append_assoc]

theorem flatMap {α : Type} {g : α → List Lexeme} {items : List α} (h : ∀ a ∈ items, Becomes f (g a) (g a)) :
    Becomes f (items.flatMap g) (items.flatMap g) := by
  induction items with
  | nil => exact .nil
  | cons a items ih =>
    rw [List.flatMap_cons]
    exact (h a List.mem_cons_self).append (ih fun b hb => h b (List.mem_cons_of_mem _ hb))

end Becomes

/-! ## Keywords -/

/-- Lexemes without the keyword `query` where it starts a definition and a selection set follows at once. A definition
starts in front of all and behind a brace that closes the last open bracket; `depth` counts braces and parentheses. -/
def withoutKeyword (atStart : Bool) (depth : Nat) : List Lexeme → List Lexeme
  | [] => []
  | x :: rest =>
    if atStart = true ∧ x = ⟨.name, "query"⟩ ∧ rest.head?.map Lexeme.kind = some .lBrace then
      withoutKeyword false depth rest
    else
      x :: match x.kind with
        | .lBrace | .lParen => withoutKeyword false (depth + 1) rest
        | .rBrace => withoutKeyword (depth == 1) (depth - 1) rest
        | .rParen => withoutKeyword false (depth - 1) rest
        | _ => withoutKeyword false depth rest

/-- Lexemes with their strings decoded, without the keywords that a printed document leaves out. -/
def canonical (ls : List Lexeme) : List Lexeme := withoutKeyword true 0 (ls.map Lexeme.decoded)

/-- Lexemes of which no keyword is left out, at any depth. -/
def Plain (ls : List Lexeme) : Prop := ∀ depth, Becomes (withoutKeyword false depth) ls ls

/-- Lexemes of which no keyword is left out, inside brackets. -/
def Inner (ls : List Lexeme) : Prop := ∀ depth, Becomes (withoutKeyword false (depth + 1)) ls ls

section Plain

variable {ls ms : List Lexeme} {x : Lexeme}

/-- The kinds that open or close a bracket. -/
def bracketKinds : List TokenKind := [.lBrace, .lParen, .rBrace, .rParen]

theorem Plain.nil : Plain [] := fun _ => .nil

theorem Plain.append (h : Plain ls) (h' : Plain ms) : Plain (ls ++ ms) := fun depth => (h depth).append (h' depth)

theorem Plain.cons (hx : x.kind ∉ bracketKinds) (h : Plain ls) : Plain (x :: ls) := fun depth more => by
  rw [List.cons_append, withoutKeyword, if_neg (by simp)]
  simp only [bracketKinds, List.mem_cons, List.not_mem_nil, or_false, not_or] at hx
  obtain ⟨h1, h2, h3, h4⟩ := hx
  split <;> first | exact absurd ‹_› ‹_› | rw [h, List.cons_append]

theorem Plain.flatMap {α : Type} {g : α → List Lexeme} {items : List α} (h : ∀ a ∈ items, Plain (g a)) :
    Plain (items.flatMap g) := fun depth => .flatMap fun a ha => h a ha depth

theorem Plain.inner (h : Plain ls) : Inner ls := fun depth => h (depth + 1)

theorem Inner.append (h : Inner ls) (h' : Inner ms) : Inner (ls ++ ms) := fun depth => (h depth).append (h' depth)

theorem Inner.flatMap {α : Type} {g : α → List Lexeme} {items : List α} (h : ∀ a ∈ items, Inner (g a)) :
    Inner (items.flatMap g) := fun depth => .flatMap fun a ha => h a ha depth

/-- Parentheses close as deep as they open. -/
theorem Inner.parens (h : Inner ls) : Plain (⟨.lParen, "("⟩ :: ls ++ [⟨.rParen, ")"⟩]) := fun depth more => by
  simp only [List.cons_append, List.append_assoc, List.nil_append]
  rw [withoutKeyword, if_neg (by simp)]
  dsimp only
  rw [h, withoutKeyword, if_neg (by simp)]
  rfl

/-- Braces inside other brackets close as deep as they open. -/
theorem Inner.braces (h : Inner ls) : Inner (bracedLexemes ls) := fun depth more => by
  simp only [bracedLexemes, List.cons_append, List.append_assoc, List.nil_append]
  rw [withoutKeyword, if_neg (by simp)]
  dsimp only
  rw [h, withoutKeyword, if_neg (by simp)]
  simp

/-- Behind the braces of a definition another one can start. -/
theorem Inner.body (h : Inner ls) (more : List Lexeme) :
    withoutKeyword false 0 (bracedLexemes ls ++ more) = bracedLexemes ls ++ withoutKeyword true 0 more := by
  simp only [bracedLexemes, List.cons_append, List.append_assoc, List.nil_append]
  rw [withoutKeyword, if_neg (by simp)]
  dsimp only
  rw [h, withoutKeyword, if_neg (by simp)]
  rfl

end Plain

/-- Decoding neither makes nor hides a keyword. -/
theorem withoutKeyword_decoded (atStart : Bool) (depth : Nat) (ls : List Lexeme) :
    withoutKeyword atStart depth (ls.map Lexeme.decoded) = (withoutKeyword atStart depth ls).map Lexeme.decoded := by
  induction ls generalizing atStart depth with
  | nil => rfl
  | cons x rest ih =>
    have hx : x.decoded = ⟨.name, "query"⟩ ↔ x = ⟨.name, "query"⟩ := by
      refine ⟨fun h => ?_, fun h => by rw [h]; rfl⟩
      have hk := x.kind_decoded
      rw [h] at hk
      split at hk
      · cases hk
      · rw [← h, Lexeme.decoded_of_kind (by rw [← hk]; decide) (by rw [← hk]; decide)]
    have hrest : (rest.map Lexeme.decoded).head?.map Lexeme.kind = some .lBrace ↔
        rest.head?.map Lexeme.kind = some .lBrace := by
      cases rest with
      | nil => rfl
      | cons y rest =>
        simp only [List.map_cons, List.head?_cons, Option.map_some, Option.some.injEq, y.kind_decoded]
        split
        · rename_i hy
          simp [hy]
        · rfl
    simp only [List.map_cons, withoutKeyword, hx, hrest]
    split
    · exact ih _ _
    · simp only [List.map_cons, List.cons.injEq, true_and, x.kind_decoded, ih]
      -- a decoded block string is a string, and neither is a bracket
      by_cases hk : x.kind = .blockString
      · rw [if_pos hk, hk]
      · rw [if_neg hk]
        split <;> rfl

/-! ## Printed documents -/

theorem TypeRef.plain_lexemes (t : TypeRef) : Plain t.lexemes := by
  induction t with
  | named name => exact .cons (by simp [bracketKinds]) .nil
  | list item ih =>
    exact .cons (by simp [bracketKinds]) (ih.append (.cons (by simp [bracketKinds]) .nil))
  | nonNull inner ih => exact ih.append (.cons (by simp [bracketKinds]) .nil)

mutual

theorem Value.inner_lexemes : ∀ v : Value, Inner v.lexemes
  | .variable _ _ => (Plain.cons (by simp [bracketKinds]) (.cons (by simp [bracketKinds]) .nil)).inner
  | .int _ _ | .float _ _ | .string _ _ | .boolean _ _ | .null _ | .enum _ _ =>
    (Plain.cons (by simp [bracketKinds]) .nil).inner
  | .list items _ => (Plain.cons (x := ⟨.lBracket, "["⟩) (by decide) .nil).inner.append
      ((Value.inner_lexemesOfItems items).append (Plain.cons (x := ⟨.rBracket, "]"⟩) (by decide) .nil).inner)
  | .object fields _ => (Value.inner_lexemesOfFields fields).braces

theorem Value.inner_lexemesOfItems : ∀ items : List Value, Inner (Value.lexemesOfItems items)
  | [] => Plain.nil.inner
  | item :: items => item.inner_lexemes.append (Value.inner_lexemesOfItems items)

theorem Value.inner_lexemesOfFields : ∀ fields : List (Name × Value), Inner (Value.lexemesOfFields fields)
  | [] => Plain.nil.inner
  | (name, value) :: fields => (Plain.cons (x := ⟨.name, name.text⟩) (by simp [bracketKinds])
      (.cons (x := ⟨.colon, ":"⟩) (by decide) .nil)).inner.append
        (value.inner_lexemes.append (Value.inner_lexemesOfFields fields))

end

theorem Argument.inner_lexemes (a : Argument) : Inner a.lexemes :=
  (Plain.cons (x := ⟨.name, a.name.text⟩) (by simp [bracketKinds])
    (.cons (x := ⟨.colon, ":"⟩) (by decide) .nil)).inner.append a.value.inner_lexemes

theorem plain_argumentsLexemes (as : List Argument) : Plain (argumentsLexemes as) := by
  unfold argumentsLexemes
  split
  · exact .nil
  · exact (Inner.flatMap fun a _ => a.inner_lexemes).parens

theorem plain_directivesLexemes (ds : List Directive) : Plain (directivesLexemes ds) :=
  .flatMap fun d _ =>
    .cons (by simp [bracketKinds]) (.cons (by simp [bracketKinds]) (plain_argumentsLexemes d.arguments))

theorem Field.plain_lexemes (f : Field) : Plain f.lexemes := by
  refine .append ?_ (.cons (by simp [bracketKinds])
    ((plain_argumentsLexemes f.arguments).append (plain_directivesLexemes f.directives)))
  cases f.label with
  | none => exact .nil
  | some label => exact .cons (by simp [bracketKinds]) (.cons (by simp [bracketKinds]) .nil)

theorem Inline.plain_lexemes (i : Inline) : Plain i.lexemes := by
  refine .cons (by simp [bracketKinds]) (.append ?_ (plain_directivesLexemes i.directives))
  cases i.condition with
  | none => exact .nil
  | some type => exact .cons (by simp [bracketKinds]) (.cons (by simp [bracketKinds]) .nil)

mutual

theorem Selection.inner_lexemes : ∀ s : Selection, Inner s.lexemes
  | .field f => f.plain_lexemes.inner
  | .group f selections _ => f.plain_lexemes.inner.append (Selection.inner_lexemesIn selections).braces
  | .spread s => (Plain.cons (by simp [bracketKinds]) (.cons (by simp [bracketKinds])
      (plain_directivesLexemes s.directives))).inner
  | .inline i selections _ => i.plain_lexemes.inner.append (Selection.inner_lexemesIn selections).braces

theorem Selection.inner_lexemesIn : ∀ selections : List Selection, Inner (Selection.lexemesIn selections)
  | [] => Plain.nil.inner
  | s :: rest => s.inner_lexemes.append (Selection.inner_lexemesIn rest)

end

theorem VariableDefinition.inner_lexemes (v : VariableDefinition) : Inner v.lexemes := by
  refine (Plain.cons (x := ⟨.dollar, "$"⟩) (by decide) (.cons (x := ⟨.name, v.name.text⟩) (by simp [bracketKinds])
    (.cons (x := ⟨.colon, ":"⟩) (by decide) v.type.plain_lexemes))).inner.append
    (.append ?_ (plain_directivesLexemes v.directives).inner)
  cases v.defaultValue with
  | none => exact Plain.nil.inner
  | some value =>
    rw [Option.toList_some, List.flatMap_singleton]
    exact (Plain.cons (x := ⟨.equals, "="⟩) (by decide) .nil).inner.append value.inner_lexemes

theorem plain_variablesLexemes (vs : List VariableDefinition) : Plain (variablesLexemes vs) := by
  unfold variablesLexemes
  split
  · exact .nil
  · exact (Inner.flatMap fun v _ => v.inner_lexemes).parens

theorem Operation.plain_headLexemes (op : Operation) : Plain op.headLexemes := by
  refine .cons (by simp [bracketKinds]) (.append ?_
    ((plain_variablesLexemes op.variableDefinitions).append (plain_directivesLexemes op.directives)))
  cases op.name with
  | none => exact .nil
  | some name => exact .cons (by simp [bracketKinds]) .nil

/-- The selection set of a definition is left as it is. -/
theorem withoutKeyword_body (set : SelectionSet) (more : List Lexeme) :
    withoutKeyword false 0 (set.lexemes ++ more) = set.lexemes ++ withoutKeyword true 0 more :=
  (Selection.inner_lexemesIn set.selections).body more

/-- A definition that does not start with a keyword to leave out. -/
theorem withoutKeyword_start {x : Lexeme} {ls : List Lexeme}
    (h : ¬ (x = ⟨.name, "query"⟩ ∧ ls.head?.map Lexeme.kind = some .lBrace)) :
    withoutKeyword true 0 (x :: ls) = withoutKeyword false 0 (x :: ls) := by
  rw [withoutKeyword, withoutKeyword, if_neg (fun hx => h hx.2), if_neg (fun hx => h hx.2)]

/-- The keyword of an anonymous query that has only a selection set is left out. -/
theorem withoutKeyword_query (set : SelectionSet) :
    Becomes (withoutKeyword true 0) (⟨.name, "query"⟩ :: set.lexemes) set.lexemes := fun more => by
  rw [List.cons_append, withoutKeyword, if_pos ⟨rfl, rfl, rfl⟩, withoutKeyword_body]

/-- An operation that is written with its keyword, though it may need none. -/
theorem withoutKeyword_operation (op : Operation) :
    Becomes (withoutKeyword true 0) (op.headLexemes ++ op.body.lexemes) op.lexemes := by
  intro more
  unfold Operation.lexemes
  split
  · rename_i hs
    simp only [Operation.isShorthand, Bool.and_eq_true, beq_iff_eq, Option.isNone_iff_eq_none, List.isEmpty_iff] at hs
    obtain ⟨⟨⟨hkind, hname⟩, hdeclared⟩, hmarks⟩ := hs
    have hhead : op.headLexemes = [⟨.name, "query"⟩] := by
      simp [Operation.headLexemes, hkind, hname, hdeclared, hmarks, OperationKind.keyword, variablesLexemes,
        directivesLexemes]
    rw [hhead]
    exact withoutKeyword_query op.body more
  · rename_i hs
    have hbody := op.plain_headLexemes 0 (op.body.lexemes ++ more)
    rw [withoutKeyword_body] at hbody
    rw [List.append_assoc, List.append_assoc, ← hbody]
    refine withoutKeyword_start fun h => hs ?_
    obtain ⟨hkeyword, hnext⟩ := h
    -- a brace can follow the keyword only if the head is the keyword alone
    have hkind : op.kind = .query := by
      revert hkeyword
      cases op.kind <;> simp [OperationKind.keyword]
    have hname : op.name = none := by
      cases hn : op.name with
      | none => rfl
      | some name => simp [hn] at hnext
    have hdeclared : op.variableDefinitions = [] := by
      cases hv : op.variableDefinitions with
      | nil => rfl
      | cons v vs => simp [hname, variablesLexemes, hv] at hnext
    have hmarks : op.directives = [] := by
      cases hd : op.directives with
      | nil => rfl
      | cons d ds => simp [hname, hdeclared, variablesLexemes, directivesLexemes, Directive.lexemes, hd] at hnext
    simp [Operation.isShorthand, hkind, hname, hdeclared, hmarks]

theorem withoutKeyword_definition (d : Definition) : Becomes (withoutKeyword true 0) d.lexemes d.lexemes := by
  intro more
  cases d with
  | operation op =>
    simp only [Definition.lexemes, Operation.lexemes]
    split
    · rw [← withoutKeyword_body]
      exact withoutKeyword_start fun h => by simp at h
    · rename_i hs
      have hspelled := withoutKeyword_operation op more
      rwa [Operation.lexemes, if_neg hs] at hspelled
  | fragment frag =>
    have hhead : Plain (⟨.name, "fragment"⟩ :: ⟨.name, frag.name.text⟩ :: ⟨.name, "on"⟩ ::
        ⟨.name, frag.condition.text⟩ :: directivesLexemes frag.directives) :=
      .cons (by decide) (.cons (by simp [bracketKinds]) (.cons (by decide) (.cons (by simp [bracketKinds])
        (plain_directivesLexemes frag.directives))))
    have hbody := hhead 0 (frag.body.lexemes ++ more)
    rw [withoutKeyword_body] at hbody
    simp only [Definition.lexemes, Fragment.lexemes, List.cons_append, List.append_assoc] at hbody ⊢
    rw [← hbody]
    exact withoutKeyword_start fun h => by simp at h

theorem withoutKeyword_document (d : Document) : withoutKeyword true 0 d.lexemes = d.lexemes := by
  have hdefinitions : Becomes (withoutKeyword true 0) d.lexemes d.lexemes :=
    .flatMap fun definition _ => withoutKeyword_definition definition
  have hwhole := hdefinitions []
  rw [List.append_nil] at hwhole
  rw [hwhole, withoutKeyword, List.append_nil]

/-- A printed document has no keyword to leave out. -/
theorem Document.canonical_lexemes (d : Document) : canonical d.lexemes = d.lexemes.map Lexeme.decoded := by
  rw [canonical, withoutKeyword_decoded, withoutKeyword_document]

/-! ## Empty parentheses -/

/-- Lexemes without the parentheses that hold nothing. -/
def withoutEmptyParens : List Lexeme → List Lexeme
  | [] => []
  | [x] => [x]
  | x :: y :: rest =>
    if x.kind = .lParen ∧ y.kind = .rParen then withoutEmptyParens rest else x :: withoutEmptyParens (y :: rest)

section Parens

variable {x : Lexeme} {ls out : List Lexeme}

theorem withoutEmptyParens_cons (h : x.kind ≠ .lParen) : withoutEmptyParens (x :: ls) = x :: withoutEmptyParens ls := by
  cases ls with
  | nil => rfl
  | cons y ls => exact if_neg fun hk => h hk.1

/-- A parenthesis with something behind it. -/
theorem withoutEmptyParens_open (h : ls.head?.map Lexeme.kind ≠ some .rParen) :
    withoutEmptyParens (x :: ls) = x :: withoutEmptyParens ls := by
  cases ls with
  | nil => rfl
  | cons y ls => exact if_neg fun hk => h (by simp [hk.2])

/-- The opening parentheses among lexemes. -/
def openings (ls : List Lexeme) : Nat := ls.countP fun x => x.kind = .lParen

theorem openings_cons (x : Lexeme) (ls : List Lexeme) :
    openings (x :: ls) = openings ls + if x.kind = .lParen then 1 else 0 := by
  simp [openings, List.countP_cons]

/-- Where empty parentheses are left out, there are fewer. -/
theorem withoutEmptyParens_eq_or_openings_lt (ls : List Lexeme) :
    withoutEmptyParens ls = ls ∨ openings (withoutEmptyParens ls) < openings ls := by
  induction ls using withoutEmptyParens.induct with
  | case1 => exact .inl rfl
  | case2 x => exact .inl rfl
  | case3 x y rest h ih =>
    refine .inr ?_
    rw [withoutEmptyParens, if_pos h, openings_cons, if_pos h.1, openings_cons]
    rcases ih with ih | ih
    · rw [ih]
      omega
    · omega
  | case4 x y rest h ih =>
    rw [withoutEmptyParens, if_neg h]
    rcases ih with ih | ih
    · exact .inl (congrArg _ ih)
    · refine .inr ?_
      rw [openings_cons, openings_cons x]
      omega

theorem openings_withoutKeyword (atStart : Bool) (depth : Nat) (ls : List Lexeme) :
    openings (withoutKeyword atStart depth ls) = openings ls := by
  induction ls generalizing atStart depth with
  | nil => rfl
  | cons x rest ih =>
    rw [withoutKeyword, openings_cons]
    split
    · rename_i h
      simp [ih, h.2.1]
    · rw [openings_cons]
      split <;> rw [ih]

/-- Decoding and dropping keywords leaves parentheses as they are. -/
theorem openings_canonical (ls : List Lexeme) : openings (canonical ls) = openings ls := by
  rw [canonical, openings_withoutKeyword, openings, List.countP_map]
  congr 1
  funext x
  simp only [Function.comp, x.kind_decoded]
  split
  · rename_i h
    simp [h]
  · rfl

/-- Lexemes that differ in parentheses at all differ after decoding and dropping keywords too. -/
theorem canonical_withoutEmptyParens_eq_iff (ls : List Lexeme) :
    canonical (withoutEmptyParens ls) = canonical ls ↔ withoutEmptyParens ls = ls := by
  refine ⟨fun h => ?_, fun h => by rw [h]⟩
  have hopenings := congrArg openings h
  rw [openings_canonical, openings_canonical] at hopenings
  exact (withoutEmptyParens_eq_or_openings_lt ls).resolve_right (by omega)

end Parens

/-! ## What is written -/

/-- Lexemes whose strings are decoded and whose empty parentheses are left out. -/
def tidy (ls : List Lexeme) : List Lexeme := (withoutEmptyParens ls).map Lexeme.decoded

/-- Lexemes that are others, once strings are decoded and empty parentheses left out. -/
def Written (ls out : List Lexeme) : Prop := Becomes tidy ls (out.map Lexeme.decoded)

namespace Written

variable {x y : Lexeme} {ls ls' out out' : List Lexeme}

theorem nil : Written [] [] := Becomes.nil

theorem append (h : Written ls out) (h' : Written ls' out') : Written (ls ++ ls') (out ++ out') := by
  unfold Written
  rw [List.map_append]
  exact Becomes.append h h'

/-- A lexeme, or a string that is decoded to the same. -/
theorem single (hx : x.kind ≠ .lParen) (hy : x.decoded = y.decoded) : Written [x] [y] := fun more => by
  simp only [tidy, List.cons_append, List.nil_append, withoutEmptyParens_cons hx, List.map_cons, hy, List.map_nil]

theorem cons (hx : x.kind ≠ .lParen) (h : Written ls out) : Written (x :: ls) (x :: out) := (single hx rfl).append h

/-- What is written with something is not nothing. -/
theorem ne_nil (h : Written ls out) (hout : out ≠ []) : ls ≠ [] := by
  rintro rfl
  have hmore := h []
  simp only [tidy, List.append_nil, withoutEmptyParens, List.map_nil] at hmore
  exact hout (List.map_eq_nil_iff.1 hmore.symm)

/-- Parentheses with something in them stay. -/
theorem parens (h : Written ls out) (hne : ls ≠ []) (hopen : ls.head?.map Lexeme.kind ≠ some .rParen) :
    Written (⟨.lParen, "("⟩ :: ls ++ [⟨.rParen, ")"⟩]) (⟨.lParen, "("⟩ :: out ++ [⟨.rParen, ")"⟩]) := fun more => by
  have hclosed := (h.append (single (x := ⟨.rParen, ")"⟩) (by decide) rfl)) more
  obtain ⟨y, ls, rfl⟩ := List.exists_cons_of_ne_nil hne
  have hstays : withoutEmptyParens (⟨.lParen, "("⟩ :: (y :: ls ++ [⟨.rParen, ")"⟩] ++ more)) =
      ⟨.lParen, "("⟩ :: withoutEmptyParens (y :: ls ++ [⟨.rParen, ")"⟩] ++ more) := withoutEmptyParens_open hopen
  rw [List.cons_append, List.cons_append, tidy, hstays, List.map_cons]
  exact congrArg _ hclosed

/-- Parentheses with nothing in them are left out. -/
theorem emptyParens : Written [⟨.lParen, "("⟩, ⟨.rParen, ")"⟩] [] := fun more => by
  simp only [tidy, List.cons_append, List.nil_append, withoutEmptyParens, and_self, if_true, List.map_nil]

theorem braces (h : Written ls out) : Written (bracedLexemes ls) (bracedLexemes out) :=
  (cons (by decide) h).append (single (by decide) rfl)

end Written

/-- Lexemes at the start of a definition that are others, once they are tidy and without a keyword to leave out. -/
def Opens (ls out : List Lexeme) : Prop :=
  Becomes (fun ls => canonical (withoutEmptyParens ls)) ls (out.map Lexeme.decoded)

theorem Opens.nil : Opens [] [] := Becomes.nil

theorem Opens.append {ls ls' out out' : List Lexeme} (h : Opens ls out) (h' : Opens ls' out') :
    Opens (ls ++ ls') (out ++ out') := by
  unfold Opens
  rw [List.map_append]
  exact Becomes.append h h'

theorem Written.opens {ls out out' : List Lexeme} (h : Written ls out)
    (hout : Becomes (withoutKeyword true 0) out out') : Opens ls out' := fun more => by
  have hmore := h more
  simp only [tidy, ← List.map_append] at hmore
  dsimp only [canonical]
  rw [hmore, withoutKeyword_decoded, withoutKeyword_decoded, hout, List.map_append]

end QueryBatch
