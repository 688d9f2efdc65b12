import QueryBatch.Proofs.Document.Unspanned
import QueryBatch.Proofs.Document.WellFormed

/-!
# What a printed document is cut into

* `Value.lexemes`, `Selection.lexemes`, `Definition.lexemes`, …: the lexemes that a node is written with.
* `Prints`: a text that is cut into certain lexemes in front of every break.
* `Definition.WellFormed.prints`, `Document.WellFormed.lexes_text`: the printed text of a node is cut into its lexemes.
-/

namespace QueryBatch

open Token

/-! ## The lexemes of nodes -/

def TypeRef.lexemes : TypeRef → List Lexeme
  | .named name => [⟨.name, name⟩]
  | .list item => ⟨.lBracket, "["⟩ :: item.lexemes ++ [⟨.rBracket, "]"⟩]
  | .nonNull inner => inner.lexemes ++ [⟨.bang, "!"⟩]

mutual

def Value.lexemes : Value → List Lexeme
  | .variable name _ => [⟨.dollar, "$"⟩, ⟨.name, name⟩]
  | .int digits _ => [⟨.int, digits⟩]
  | .float digits _ => [⟨.float, digits⟩]
  | .string content _ => [⟨.string, Text.Quoted.quote content⟩]
  | .boolean holds _ => [⟨.name, if holds then "true" else "false"⟩]
  | .null _ => [⟨.name, "null"⟩]
  | .enum name _ => [⟨.name, name⟩]
  | .list items _ => ⟨.lBracket, "["⟩ :: Value.lexemesOfItems items ++ [⟨.rBracket, "]"⟩]
  | .object fields _ => ⟨.lBrace, "\x7b"⟩ :: Value.lexemesOfFields fields ++ [⟨.rBrace, "\x7d"⟩]

def Value.lexemesOfItems : List Value → List Lexeme
  | [] => []
  | item :: items => item.lexemes ++ Value.lexemesOfItems items

def Value.lexemesOfFields : List (Name × Value) → List Lexeme
  | [] => []
  | (name, value) :: fields => ⟨.name, name.text⟩ :: ⟨.colon, ":"⟩ :: value.lexemes ++ Value.lexemesOfFields fields

end

def Argument.lexemes (a : Argument) : List Lexeme := ⟨.name, a.name.text⟩ :: ⟨.colon, ":"⟩ :: a.value.lexemes

def argumentsLexemes (arguments : List Argument) : List Lexeme :=
  if arguments.isEmpty then [] else ⟨.lParen, "("⟩ :: arguments.flatMap Argument.lexemes ++ [⟨.rParen, ")"⟩]

def Directive.lexemes (d : Directive) : List Lexeme :=
  ⟨.atSign, "@"⟩ :: ⟨.name, d.name.text⟩ :: argumentsLexemes d.arguments

def directivesLexemes (directives : List Directive) : List Lexeme := directives.flatMap Directive.lexemes

def Field.lexemes (f : Field) : List Lexeme :=
  (f.label.toList.flatMap fun label => [⟨.name, label.text⟩, ⟨.colon, ":"⟩]) ++
    ⟨.name, f.name.text⟩ :: (argumentsLexemes f.arguments ++ directivesLexemes f.directives)

def Spread.lexemes (s : Spread) : List Lexeme :=
  ⟨.spread, "..."⟩ :: ⟨.name, s.name.text⟩ :: directivesLexemes s.directives

def Inline.lexemes (i : Inline) : List Lexeme :=
  ⟨.spread, "..."⟩ :: ((i.condition.toList.flatMap fun type => [⟨.name, "on"⟩, ⟨.name, type.text⟩]) ++
    directivesLexemes i.directives)

/-- The lexemes of braces around others. -/
def bracedLexemes (inner : List Lexeme) : List Lexeme := ⟨.lBrace, "\x7b"⟩ :: inner ++ [⟨.rBrace, "\x7d"⟩]

mutual

def Selection.lexemes : Selection → List Lexeme
  | .field f => f.lexemes
  | .group f selections _ => f.lexemes ++ bracedLexemes (Selection.lexemesIn selections)
  | .spread s => s.lexemes
  | .inline i selections _ => i.lexemes ++ bracedLexemes (Selection.lexemesIn selections)

def Selection.lexemesIn : List Selection → List Lexeme
  | [] => []
  | selection :: rest => selection.lexemes ++ Selection.lexemesIn rest

end

def SelectionSet.lexemes (set : SelectionSet) : List Lexeme := bracedLexemes (Selection.lexemesIn set.selections)

def VariableDefinition.lexemes (v : VariableDefinition) : List Lexeme :=
  ⟨.dollar, "$"⟩ :: ⟨.name, v.name.text⟩ :: ⟨.colon, ":"⟩ :: (v.type.lexemes ++
    ((v.defaultValue.toList.flatMap fun value => ⟨.equals, "="⟩ :: value.lexemes) ++ directivesLexemes v.directives))

def variablesLexemes (declared : List VariableDefinition) : List Lexeme :=
  if declared.isEmpty then []
  else ⟨.lParen, "("⟩ :: declared.flatMap VariableDefinition.lexemes ++ [⟨.rParen, ")"⟩]

/-- The lexemes of an operation up to its selection set. -/
def Operation.headLexemes (op : Operation) : List Lexeme :=
  ⟨.name, op.kind.keyword⟩ :: ((op.name.toList.map fun name => ⟨.name, name.text⟩) ++
    (variablesLexemes op.variableDefinitions ++ directivesLexemes op.directives))

def Operation.lexemes (op : Operation) : List Lexeme :=
  if op.isShorthand then op.body.lexemes else op.headLexemes ++ op.body.lexemes

def Fragment.lexemes (frag : Fragment) : List Lexeme :=
  ⟨.name, "fragment"⟩ :: ⟨.name, frag.name.text⟩ :: ⟨.name, "on"⟩ :: ⟨.name, frag.condition.text⟩ ::
    (directivesLexemes frag.directives ++ frag.body.lexemes)

def Definition.lexemes : Definition → List Lexeme
  | .operation op => op.lexemes
  | .fragment frag => frag.lexemes

def Document.lexemes (d : Document) : List Lexeme := d.definitions.flatMap Definition.lexemes

theorem Value.lexemesOfItems_eq (items : List Value) : lexemesOfItems items = items.flatMap lexemes := by
  induction items with
  | nil => rfl
  | cons item items ih => simp [lexemesOfItems, ih]

theorem Value.lexemesOfFields_eq (fields : List (Name × Value)) :
    lexemesOfFields fields = fields.flatMap fun f => ⟨.name, f.1.text⟩ :: ⟨.colon, ":"⟩ :: f.2.lexemes := by
  induction fields with
  | nil => rfl
  | cons f fields ih => simp [lexemesOfFields, ih]

theorem Selection.lexemesIn_eq (selections : List Selection) : lexemesIn selections = selections.flatMap lexemes := by
  induction selections with
  | nil => rfl
  | cons selection rest ih => simp [lexemesIn, ih]

/-! ## Texts in front of breaks -/

/-- A text that is cut into these lexemes in front of every break. -/
def Prints (s : String) (ls : List Lexeme) : Prop :=
  ∀ ⦃rest : List Char⦄ ⦃more : List Lexeme⦄, Breaks rest → Lexes rest more → Lexes (s.toList ++ rest) (ls ++ more)

/-- A text that is cut into these lexemes whatever follows. -/
def Cuts (s : String) (ls : List Lexeme) : Prop :=
  ∀ ⦃rest : List Char⦄ ⦃more : List Lexeme⦄, Lexes rest more → Lexes (s.toList ++ rest) (ls ++ more)

/-- A text that may stand behind any other: it is empty or starts with a break. -/
structure Follows (s : String) (ls : List Lexeme) : Prop where
  breaks : Breaks s.toList
  prints : Prints s ls

section Compose

variable {s t : String} {ls ms : List Lexeme}

theorem Cuts.prints (h : Cuts s ls) : Prints s ls := fun _ _ _ hr => h hr

theorem Cuts.append (hs : Cuts s ls) (ht : Cuts t ms) : Cuts (s ++ t) (ls ++ ms) := by
  intro rest more hr
  rw [String.toList_append, List.append_assoc, List.append_assoc]
  exact hs (ht hr)

theorem Cuts.append_prints (hs : Cuts s ls) (ht : Prints t ms) : Prints (s ++ t) (ls ++ ms) := by
  intro rest more hb hr
  rw [String.toList_append, List.append_assoc, List.append_assoc]
  exact hs (ht hb hr)

theorem Prints.append (hs : Prints s ls) (ht : Follows t ms) : Prints (s ++ t) (ls ++ ms) := by
  intro rest more hr hm
  rw [String.toList_append, List.append_assoc, List.append_assoc]
  refine hs (fun c hc => ?_) (ht.prints hr hm)
  cases h : t.toList with
  | nil => exact hr c (by simpa [h] using hc)
  | cons d ds => exact ht.breaks c (by simpa [h] using hc)

theorem Follows.empty : Follows "" [] := ⟨breaks_nil, fun _ _ _ hr => hr⟩

theorem Follows.append (hs : Follows s ls) (ht : Follows t ms) : Follows (s ++ t) (ls ++ ms) := by
  refine ⟨fun c hc => ?_, hs.prints.append ht⟩
  rw [String.toList_append] at hc
  cases h : s.toList with
  | nil => exact ht.breaks c (by simpa [h] using hc)
  | cons d ds => exact hs.breaks c (by simpa [h] using hc)

/-- A text may stand behind any other once a text that starts with a break stands in front of it. -/
theorem Prints.follows {c : Char} {w : List Char} (hc : c ∈ [' ', '\n', ',', ':', '(', ')', ']', '}', '!'])
    (hs : Cuts (String.ofList (c :: w)) ls) (ht : Prints t ms) : Follows (String.ofList (c :: w) ++ t) (ls ++ ms) := by
  refine ⟨?_, hs.append_prints ht⟩
  rw [String.toList_append, String.toList_ofList]
  exact breaks_cons hc (w ++ t.toList)

end Compose

/-! ### Names, blanks and signs -/

theorem prints_name {s : String} (h : IsName s) : Prints s [⟨.name, s⟩] := fun _ _ hb hr => Lexes.name h hb hr

theorem cuts_blank {s : String} (h : s.toList.all isBlankChar = true) : Cuts s [] := by
  intro rest more hr
  generalize s.toList = cs at h
  induction cs with
  | nil => exact hr
  | cons c cs ih =>
    simp only [List.all_cons, Bool.and_eq_true] at h
    exact Lexes.blank h.1 (ih h.2)

theorem cuts_space : Cuts " " [] := cuts_blank (by decide)

/-- A sign, with blanks and commas around it or not. -/
theorem cuts_sign {c : Char} {kind : TokenKind} (h : ∀ rest, lexeme c rest = (kind, 1)) (hg : kind ≠ .garbage)
    (ht : kind.isTrivia = false) : Cuts (String.ofList [c]) [⟨kind, String.ofList [c]⟩] := by
  intro rest more hr
  rw [String.toList_ofList]
  exact Lexes.sign h hg ht hr

theorem cuts_lParen : Cuts "(" [⟨.lParen, "("⟩] := cuts_sign (fun _ => rfl) (by decide) rfl
theorem cuts_rParen : Cuts ")" [⟨.rParen, ")"⟩] := cuts_sign (fun _ => rfl) (by decide) rfl
theorem cuts_lBracket : Cuts "[" [⟨.lBracket, "["⟩] := cuts_sign (fun _ => rfl) (by decide) rfl
theorem cuts_rBracket : Cuts "]" [⟨.rBracket, "]"⟩] := cuts_sign (fun _ => rfl) (by decide) rfl
theorem cuts_lBrace : Cuts "\x7b" [⟨.lBrace, "\x7b"⟩] := cuts_sign (fun _ => rfl) (by decide) rfl
theorem cuts_rBrace : Cuts "\x7d" [⟨.rBrace, "\x7d"⟩] := cuts_sign (fun _ => rfl) (by decide) rfl
theorem cuts_bang : Cuts "!" [⟨.bang, "!"⟩] := cuts_sign (fun _ => rfl) (by decide) rfl
theorem cuts_dollar : Cuts "$" [⟨.dollar, "$"⟩] := cuts_sign (fun _ => rfl) (by decide) rfl
theorem cuts_at : Cuts "@" [⟨.atSign, "@"⟩] := cuts_sign (fun _ => rfl) (by decide) rfl
theorem cuts_dots : Cuts "..." [⟨.spread, "..."⟩] := fun _ _ hr => Lexes.dots hr

theorem cuts_comma : Cuts ", " [] := fun _ _ hr => Lexes.comma (Lexes.blank (by decide) hr)

theorem cuts_colon : Cuts ": " [⟨.colon, ":"⟩] := fun _ _ hr =>
  Lexes.sign (c := ':') (fun _ => rfl) (by decide) rfl (Lexes.blank (by decide) hr)

theorem cuts_equals : Cuts " = " [⟨.equals, "="⟩] := fun _ _ hr =>
  Lexes.blank (by decide) (Lexes.sign (c := '=') (fun _ => rfl) (by decide) rfl (Lexes.blank (by decide) hr))

theorem Prints.follows_space {s : String} {ls : List Lexeme} (h : Prints s ls) : Follows (" " ++ s) ls :=
  h.follows (c := ' ') (by decide) cuts_space

/-- Texts parted by a separator behind which any text may stand. -/
theorem prints_intercalate {α : Type} {sep : String} {text : α → String} {lexemes : α → List Lexeme} {items : List α}
    (hsep : ∀ {s ls}, Prints s ls → Follows (sep ++ s) ls) (h : ∀ x ∈ items, Prints (text x) (lexemes x)) :
    Prints (sep.intercalate (items.map text)) (items.flatMap lexemes) := by
  induction items with
  | nil => exact Follows.empty.prints
  | cons x items ih =>
    have hx := h x List.mem_cons_self
    have hrest := ih fun y hy => h y (List.mem_cons_of_mem _ hy)
    cases items with
    | nil => simpa using hx
    | cons y items =>
      rw [List.map_cons, List.map_cons, String.intercalate_cons_cons, List.flatMap_cons, String.append_assoc]
      exact hx.append (hsep hrest)

/-- Texts parted by commas. -/
theorem prints_commas {α : Type} {text : α → String} {lexemes : α → List Lexeme} {items : List α}
    (h : ∀ x ∈ items, Prints (text x) (lexemes x)) :
    Prints (", ".intercalate (items.map text)) (items.flatMap lexemes) :=
  prints_intercalate (fun hs => hs.follows (c := ',') (w := [' ']) (by decide) cuts_comma) h

/-- A text behind a name and a colon. -/
theorem prints_labelled {name text : String} {ls : List Lexeme} (hn : IsName name) (h : Prints text ls) :
    Prints (name ++ ": " ++ text) (⟨.name, name⟩ :: ⟨.colon, ":"⟩ :: ls) := by
  rw [String.append_assoc]
  exact (prints_name hn).append (h.follows (c := ':') (w := [' ']) (by decide) cuts_colon)

theorem ends_rBracket : Follows "]" [⟨.rBracket, "]"⟩] :=
  Follows.empty.prints.follows (c := ']') (by decide) cuts_rBracket

theorem ends_rParen : Follows ")" [⟨.rParen, ")"⟩] :=
  Follows.empty.prints.follows (c := ')') (by decide) cuts_rParen

theorem ends_rBrace : Follows "\x7d" [⟨.rBrace, "\x7d"⟩] :=
  Follows.empty.prints.follows (c := '}') (by decide) cuts_rBrace

theorem ends_bang : Follows "!" [⟨.bang, "!"⟩] :=
  Follows.empty.prints.follows (c := '!') (by decide) cuts_bang

/-- A text in parentheses. -/
theorem Prints.parens {s : String} {ls : List Lexeme} (h : Prints s ls) :
    Follows ("(" ++ s ++ ")") (⟨.lParen, "("⟩ :: ls ++ [⟨.rParen, ")"⟩]) := by
  rw [String.append_assoc]
  have hp := (h.append ends_rParen).follows (c := '(') (by decide) cuts_lParen
  exact hp

/-! ## Nodes -/

theorem TypeRef.WellFormed.prints {t : TypeRef} (h : t.WellFormed) : Prints t.text t.lexemes := by
  induction h with
  | named hn => exact prints_name hn
  | list _ ih =>
    rw [TypeRef.text, TypeRef.lexemes, String.append_assoc]
    exact cuts_lBracket.append_prints (ih.append (ends_rBracket))
  | nonNull _ _ ih => exact ih.append (ends_bang)

theorem Value.WellFormed.prints {isConst : Bool} {v : Value} (h : v.WellFormed isConst) : Prints v.text v.lexemes := by
  induction h with
  | «variable» hn => exact cuts_dollar.append_prints (prints_name hn)
  | int hn => exact fun _ _ hb hr => Lexes.number hn hb hr
  | float hn => exact fun _ _ hb hr => Lexes.number hn hb hr
  | string content _ => exact fun _ _ hb hr => Lexes.string hb.head?_ne_quote hr
  | boolean holds _ =>
    cases holds with
    | true => exact prints_name (by decide : IsName "true")
    | false => exact prints_name (by decide : IsName "false")
  | null _ => exact prints_name (by decide : IsName "null")
  | enum hn _ _ _ => exact prints_name hn
  | list _ ih =>
    rw [Value.text, Value.lexemes, textsOfList_eq_map, lexemesOfItems_eq, String.append_assoc]
    exact cuts_lBracket.append_prints ((prints_commas ih).append ends_rBracket)
  | object hn _ ih =>
    rw [Value.text, Value.lexemes, textsOfFields_eq_map, lexemesOfFields_eq, String.append_assoc]
    exact cuts_lBrace.append_prints
      ((prints_commas fun f hf => prints_labelled (hn f hf) (ih f hf)).append ends_rBrace)

theorem Argument.WellFormed.prints {isConst : Bool} {a : Argument} (h : a.WellFormed isConst) :
    Prints a.text a.lexemes := prints_labelled h.name h.value.prints

theorem follows_arguments {isConst : Bool} {as : List Argument} (h : ∀ a ∈ as, a.WellFormed isConst) :
    Follows (argumentsText as) (argumentsLexemes as) := by
  unfold argumentsText argumentsLexemes
  split
  · exact Follows.empty
  · exact (prints_commas fun a ha => (h a ha).prints).parens

theorem Directive.WellFormed.prints {isConst : Bool} {d : Directive} (h : d.WellFormed isConst) :
    Prints d.text d.lexemes := by
  rw [Directive.text, String.append_assoc]
  exact cuts_at.append_prints ((prints_name h.name).append (follows_arguments h.arguments))

theorem follows_directives {isConst : Bool} {ds : List Directive} (h : ∀ d ∈ ds, d.WellFormed isConst) :
    Follows (directivesText ds) (directivesLexemes ds) := by
  induction ds with
  | nil => exact Follows.empty
  | cons d ds ih =>
    rw [directivesText, List.map_cons, String.join_cons]
    exact (h d List.mem_cons_self).prints.follows_space.append (ih fun d hd => h d (List.mem_cons_of_mem _ hd))

/-! ### Selections -/

theorem Field.WellFormed.prints {f : Field} (h : f.WellFormed) : Prints f.text f.lexemes := by
  have hrest := (prints_name h.name).append ((follows_arguments h.arguments).append (follows_directives h.directives))
  cases hl : f.label with
  | none =>
    simp only [Field.text, Field.lexemes, hl, String.empty_append, String.append_assoc]
    exact hrest
  | some label =>
    simp only [Field.text, Field.lexemes, hl, String.append_assoc]
    have hp := prints_labelled (h.label label hl) hrest
    rw [String.append_assoc] at hp
    exact hp

theorem Spread.WellFormed.prints {s : Spread} (h : s.WellFormed) : Prints s.text s.lexemes := by
  rw [Spread.text, String.append_assoc]
  exact cuts_dots.append_prints ((prints_name h.name).append (follows_directives h.directives))

theorem Inline.WellFormed.prints {i : Inline} (h : i.WellFormed) : Prints i.text i.lexemes := by
  cases hc : i.condition with
  | none =>
    simp only [Inline.text, Inline.lexemes, hc, String.append_empty]
    exact cuts_dots.append_prints (follows_directives h.directives).prints
  | some type =>
    simp only [Inline.text, Inline.lexemes, hc, String.append_assoc]
    have hon := (prints_name (by decide : IsName "on")).append (prints_name (h.condition type hc)).follows_space
    exact cuts_dots.append_prints (hon.follows_space.append (follows_directives h.directives)).prints

theorem cuts_indentation (level : Nat) : Cuts (indentation level) [] := by
  induction level with
  | zero => exact fun _ _ hr => hr
  | succ level ih =>
    rw [indentation, List.replicate_succ, String.join_cons]
    exact (cuts_blank (by decide)).append ih

theorem Prints.follows_line {s : String} {ls : List Lexeme} (h : Prints s ls) (level : Nat) :
    Follows ("\n" ++ indentation level ++ s) ls := by
  rw [String.append_assoc]
  have hbreak : Cuts "\n" [] := cuts_blank (by decide)
  exact ((cuts_indentation level).append_prints h).follows (c := '\n') (by decide) hbreak

/-- Selections in braces. -/
theorem Follows.braced {s : String} {ls : List Lexeme} (h : Follows s ls) (level : Nat) :
    Prints (bracedText level s) (bracedLexemes ls) := by
  rw [bracedText, String.append_assoc, String.append_assoc, String.append_assoc, ← @String.append_assoc "\n"]
  exact cuts_lBrace.append_prints (h.append (ends_rBrace.prints.follows_line level)).prints

/-- Selections that are printed at every level are printed on lines of their own. -/
theorem follows_selections {selections : List Selection}
    (h : ∀ s ∈ selections, ∀ level, Prints (s.text level) s.lexemes) (level : Nat) :
    Follows (Selection.textsIn level selections) (Selection.lexemesIn selections) := by
  induction selections with
  | nil => exact Follows.empty
  | cons s rest ih =>
    rw [Selection.textsIn, Selection.lexemesIn]
    exact ((h s List.mem_cons_self level).follows_line level).append (ih fun t ht => h t (List.mem_cons_of_mem _ ht))

theorem Selection.WellFormed.prints {s : Selection} (h : s.WellFormed) (level : Nat) :
    Prints (s.text level) s.lexemes := by
  induction h generalizing level with
  | field hf => exact hf.prints
  | group hf _ _ ih =>
    rw [Selection.text, Selection.lexemes, String.append_assoc]
    exact hf.prints.append ((follows_selections ih _).braced level).follows_space
  | spread hs => exact hs.prints
  | inline hi _ _ ih =>
    rw [Selection.text, Selection.lexemes, String.append_assoc]
    exact hi.prints.append ((follows_selections ih _).braced level).follows_space

theorem SelectionSet.WellFormed.prints {set : SelectionSet} (h : set.WellFormed) : Prints set.text set.lexemes :=
  (follows_selections (fun s hs => (h.selections s hs).prints) 1).braced 0

/-! ### Definitions -/

theorem VariableDefinition.text_eq (v : VariableDefinition) : v.text = "$" ++ v.name.text ++ ": " ++ v.type.text ++
    (v.defaultValue.elim "" fun value => " = " ++ value.text) ++ directivesText v.directives := by
  unfold text
  cases v.defaultValue <;> rfl

theorem VariableDefinition.WellFormed.prints {v : VariableDefinition} (h : v.WellFormed) :
    Prints v.text v.lexemes := by
  have hinitial : Follows (v.defaultValue.elim "" fun value => " = " ++ value.text)
      (v.defaultValue.toList.flatMap fun value => ⟨.equals, "="⟩ :: value.lexemes) := by
    cases hv : v.defaultValue with
    | none => exact Follows.empty
    | some value =>
      have hp := (h.defaultValue value hv).prints.follows (c := ' ') (w := ['=', ' ']) (by decide) cuts_equals
      rwa [Option.toList_some, List.flatMap_singleton]
  have htype := h.type.prints.append (hinitial.append (follows_directives h.directives))
  have hp := cuts_dollar.append_prints (prints_labelled h.name htype)
  simp only [VariableDefinition.text_eq, VariableDefinition.lexemes, String.append_assoc] at hp ⊢
  exact hp

theorem isName_keyword (kind : OperationKind) : IsName kind.keyword := by
  cases kind <;> decide

theorem Operation.headText_eq (op : Operation) : op.headText =
    op.kind.keyword ++ (op.name.elim "" fun name => " " ++ name.text) ++
      (if op.variableDefinitions.isEmpty then ""
        else (if op.name.isNone then " " else "") ++
          "(" ++ ", ".intercalate (op.variableDefinitions.map VariableDefinition.text) ++ ")") ++
      directivesText op.directives := by
  unfold headText
  cases op.name <;> rfl

theorem Operation.WellFormed.prints_head {op : Operation} (h : op.WellFormed) : Prints op.headText op.headLexemes := by
  have hname : Follows (op.name.elim "" fun name => " " ++ name.text)
      (op.name.toList.map fun name => ⟨.name, name.text⟩) := by
    cases hn : op.name with
    | none => exact Follows.empty
    | some name => exact (prints_name (h.name name hn)).follows_space
  have hdeclared : Follows
      (if op.variableDefinitions.isEmpty then ""
        else (if op.name.isNone then " " else "") ++
          "(" ++ ", ".intercalate (op.variableDefinitions.map VariableDefinition.text) ++ ")")
      (variablesLexemes op.variableDefinitions) := by
    have hparens := (prints_commas fun v hv => (h.variableDefinitions v hv).prints).parens
    unfold variablesLexemes
    split
    · exact Follows.empty
    · rw [String.append_assoc, String.append_assoc, ← @String.append_assoc "("]
      split
      · exact hparens.prints.follows_space
      · rwa [String.empty_append]
  have hp := (prints_name (isName_keyword op.kind)).append
    (hname.append (hdeclared.append (follows_directives h.directives)))
  simp only [Operation.headText_eq, Operation.headLexemes, String.append_assoc] at hp ⊢
  exact hp

theorem Operation.WellFormed.prints {op : Operation} (h : op.WellFormed) : Prints op.text op.lexemes := by
  rw [Operation.text, Operation.lexemes]
  split
  · exact h.body.prints
  · rw [String.append_assoc]
    exact h.prints_head.append h.body.prints.follows_space

theorem Fragment.WellFormed.prints {frag : Fragment} (h : frag.WellFormed) : Prints frag.text frag.lexemes := by
  have hmarks := (follows_directives h.directives).append h.body.prints.follows_space
  have hcondition := (prints_name h.condition).append hmarks
  have hon := (prints_name (by decide : IsName "on")).append hcondition.follows_space
  have hname := (prints_name h.name).append hon.follows_space
  have hp := (prints_name (by decide : IsName "fragment")).append hname.follows_space
  simp only [Fragment.text, String.append_assoc]
  exact hp

theorem Definition.WellFormed.prints {d : Definition} (h : d.WellFormed) : Prints d.text d.lexemes := by
  cases h with
  | operation h => exact h.prints
  | fragment h => exact h.prints

/-- The printed text of a document is cut into its lexemes. -/
theorem Document.WellFormed.lexes_text {d : Document} (h : d.WellFormed) : Lexes d.text.toList d.lexemes := by
  have hbreaks : Cuts "\n\n" [] := cuts_blank (by decide)
  have hp : Prints d.text d.lexemes :=
    prints_intercalate (fun hs => hs.follows (c := '\n') (w := ['\n']) (by decide) hbreaks)
      fun x hx => (h.definitions x hx).prints
  simpa using hp breaks_nil Lexes.nil

end QueryBatch
