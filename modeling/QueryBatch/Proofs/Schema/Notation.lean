import QueryBatch.Proofs.Document.Lexemes
import QueryBatch.Proofs.Document.Nesting
import QueryBatch.Schema.Description

/-!
# The notation of schema descriptions

What a description is in the type definition language: roots, types and directives as definitions, in any order among
each other.

* `SchemaDescription.WellFormed n`: a description that has a notation. Types and defaults are nested up to `n`.
* `SchemaEntry`: one definition. `SchemaDescription.Comprises`: the definitions that make up a description.
* `SchemaEntry.lexemes`: the lexemes of a definition, and `SchemaEntry.text`: a text of them.
* `SchemaDescription.IsWrittenAs`: the texts of a description. `SchemaDescription.WellFormed.isWrittenAs_text`: one of
  them.
-/

namespace QueryBatch

open Token

/-! ## Descriptions that have a notation -/

/-- The text of a type, nested up to `n`. A doubled non-null mark has no notation. -/
def IsTypeText (n : Nat) (text : String) : Prop := ∃ t : TypeRef, t.WellFormed ∧ t.nesting ≤ n ∧ text = t.text

/-- The text of a constant value, nested up to `n`. -/
def IsConstantText (n : Nat) (text : String) : Prop :=
  ∃ v : Value, v.WellFormed true ∧ v.nesting ≤ n ∧ text = v.text

structure InputDescription.WellFormed (n : Nat) (d : InputDescription) : Prop where
  name : IsName d.name
  type : IsTypeText n d.type
  defaultText : ∀ text, d.defaultText = some text → IsConstantText n text

structure FieldDescription.WellFormed (n : Nat) (d : FieldDescription) : Prop where
  name : IsName d.name
  type : IsTypeText n d.type
  arguments : ∀ i ∈ d.arguments, i.WellFormed n

inductive TypeDescription.WellFormed (n : Nat) : TypeDescription → Prop
  | scalar {name : String} : IsName name → WellFormed n (.scalar name)
  | object {name : String} {fields : List FieldDescription} {interfaces : List String} : IsName name →
      (∀ f ∈ fields, f.WellFormed n) → (∀ i ∈ interfaces, IsName i) → WellFormed n (.object name fields interfaces)
  | interface {name : String} {fields : List FieldDescription} {interfaces : List String} : IsName name →
      (∀ f ∈ fields, f.WellFormed n) → (∀ i ∈ interfaces, IsName i) → WellFormed n (.interface name fields interfaces)
  | union {name : String} {members : List String} : IsName name → (∀ m ∈ members, IsName m) →
      WellFormed n (.union name members)
  | enum {name : String} {values : List String} : IsName name → (∀ v ∈ values, IsName v) →
      WellFormed n (.enum name values)
  | inputObject {name : String} {fields : List InputDescription} : IsName name → (∀ f ∈ fields, f.WellFormed n) →
      WellFormed n (.inputObject name fields)

structure DirectiveDescription.WellFormed (n : Nat) (d : DirectiveDescription) : Prop where
  name : IsName d.name
  arguments : ∀ i ∈ d.arguments, i.WellFormed n
  locations : d.locations ≠ []

/-- The root types of a description. -/
def SchemaDescription.roots (d : SchemaDescription) : List (OperationKind × String) :=
  d.queryType.toList.map (.query, ·) ++ d.mutationType.toList.map (.mutation, ·) ++
    d.subscriptionType.toList.map (.subscription, ·)

structure SchemaDescription.WellFormed (n : Nat) (d : SchemaDescription) : Prop where
  roots : ∀ root ∈ d.roots, IsName root.2
  types : ∀ t ∈ d.types, t.WellFormed n
  directives : ∀ x ∈ d.directives, x.WellFormed n

/-! ## Definitions -/

/-- One definition of a schema. -/
inductive SchemaEntry where
  | roots (listed : List (OperationKind × String))
  | type (type : TypeDescription)
  | directive (directive : DirectiveDescription)

namespace SchemaEntry

def rootList : SchemaEntry → List (OperationKind × String)
  | roots listed => listed
  | _ => []

def type? : SchemaEntry → Option TypeDescription
  | type t => some t
  | _ => none

def directive? : SchemaEntry → Option DirectiveDescription
  | directive d => some d
  | _ => none

end SchemaEntry

/-- The definitions that make up a description, in some order: roots, types and directives each in theirs. -/
structure SchemaDescription.Comprises (d : SchemaDescription) (entries : List SchemaEntry) : Prop where
  roots : entries.flatMap SchemaEntry.rootList = d.roots
  types : entries.filterMap SchemaEntry.type? = d.types
  directives : entries.filterMap SchemaEntry.directive? = d.directives

/-- The definitions of a description: its roots, if there are any, its types and its directives. -/
def SchemaDescription.entries (d : SchemaDescription) : List SchemaEntry :=
  (if d.roots.isEmpty then [] else [.roots d.roots]) ++ d.types.map .type ++ d.directives.map .directive

theorem SchemaDescription.comprises_entries (d : SchemaDescription) : d.Comprises d.entries := by
  unfold SchemaDescription.entries
  constructor
  · by_cases h : d.roots = [] <;>
      simp [h, List.flatMap_cons, List.flatMap_append, List.flatMap_map, SchemaEntry.rootList]
  · by_cases h : d.roots = [] <;>
      simp [h, List.filterMap_cons, List.filterMap_map, Function.comp_def, SchemaEntry.type?]
  · by_cases h : d.roots = [] <;>
      simp [h, List.filterMap_cons, List.filterMap_map, Function.comp_def, SchemaEntry.directive?]

/-! ## Lexemes -/

/-- The lexemes of items between brackets. Without items there are no brackets. -/
def enclosedLexemes {α : Type} (opening closing : Lexeme) (f : α → List Lexeme) (items : List α) : List Lexeme :=
  if items.isEmpty then [] else opening :: items.flatMap f ++ [closing]

/-- The lexemes of names behind a lead, parted by a separator. Without names there is no lead. -/
def listedLexemes (lead separator : Lexeme) : List String → List Lexeme
  | [] => []
  | first :: others => lead :: ⟨.name, first⟩ :: others.flatMap fun name => [separator, ⟨.name, name⟩]

def InputDescription.lexemes (d : InputDescription) : List Lexeme :=
  ⟨.name, d.name⟩ :: ⟨.colon, ":"⟩ :: (Token.lexemes d.type ++
    d.defaultText.toList.flatMap fun text => ⟨.equals, "="⟩ :: Token.lexemes text)

/-- The lexemes of arguments. -/
def inputsLexemes (inputs : List InputDescription) : List Lexeme :=
  enclosedLexemes ⟨.lParen, "("⟩ ⟨.rParen, ")"⟩ InputDescription.lexemes inputs

def FieldDescription.lexemes (d : FieldDescription) : List Lexeme :=
  ⟨.name, d.name⟩ :: (inputsLexemes d.arguments ++ ⟨.colon, ":"⟩ :: Token.lexemes d.type)

/-- The lexemes of the parts of a type in braces. -/
def membersLexemes {α : Type} (f : α → List Lexeme) (items : List α) : List Lexeme :=
  enclosedLexemes ⟨.lBrace, "\x7b"⟩ ⟨.rBrace, "\x7d"⟩ f items

/-- The lexemes of an object or interface behind its keyword. -/
def compositeLexemes (name : String) (fields : List FieldDescription) (interfaces : List String) : List Lexeme :=
  ⟨.name, name⟩ :: (listedLexemes ⟨.name, "implements"⟩ ⟨.amp, "&"⟩ interfaces ++
    membersLexemes FieldDescription.lexemes fields)

def TypeDescription.lexemes : TypeDescription → List Lexeme
  | scalar name => [⟨.name, "scalar"⟩, ⟨.name, name⟩]
  | object name fields interfaces => ⟨.name, "type"⟩ :: compositeLexemes name fields interfaces
  | interface name fields interfaces => ⟨.name, "interface"⟩ :: compositeLexemes name fields interfaces
  | union name members => ⟨.name, "union"⟩ :: ⟨.name, name⟩ :: listedLexemes ⟨.equals, "="⟩ ⟨.pipe, "|"⟩ members
  | enum name values => ⟨.name, "enum"⟩ :: ⟨.name, name⟩ :: membersLexemes (fun value => [⟨.name, value⟩]) values
  | inputObject name fields =>
    ⟨.name, "input"⟩ :: ⟨.name, name⟩ :: membersLexemes InputDescription.lexemes fields

def DirectiveDescription.lexemes (d : DirectiveDescription) : List Lexeme :=
  ⟨.name, "directive"⟩ :: ⟨.atSign, "@"⟩ :: ⟨.name, d.name⟩ :: (inputsLexemes d.arguments ++
    ((if d.repeatable then [⟨.name, "repeatable"⟩] else []) ++
      listedLexemes ⟨.name, "on"⟩ ⟨.pipe, "|"⟩ (d.locations.map DirectiveLocation.name)))

def rootLexemes (root : OperationKind × String) : List Lexeme :=
  [⟨.name, root.1.keyword⟩, ⟨.colon, ":"⟩, ⟨.name, root.2⟩]

def SchemaEntry.lexemes : SchemaEntry → List Lexeme
  | roots listed => ⟨.name, "schema"⟩ :: bracedLexemes (listed.flatMap rootLexemes)
  | type t => t.lexemes
  | directive d => d.lexemes

/-- The text consists of definitions that make up the description, in any layout. -/
def SchemaDescription.IsWrittenAs (d : SchemaDescription) (text : String) : Prop :=
  ∃ entries, d.Comprises entries ∧ Token.lexemes text = entries.flatMap SchemaEntry.lexemes

/-! ## Texts -/

def InputDescription.text (d : InputDescription) : String :=
  d.name ++ ": " ++ (d.type ++ d.defaultText.elim "" fun text => " = " ++ text)

/-- Arguments in parentheses. -/
def inputsText (inputs : List InputDescription) : String :=
  if inputs.isEmpty then "" else "(" ++ ", ".intercalate (inputs.map InputDescription.text) ++ ")"

def FieldDescription.text (d : FieldDescription) : String := d.name ++ inputsText d.arguments ++ ": " ++ d.type

/-- A text behind a keyword or a sign. -/
def behind (lead text : String) : String := lead ++ " " ++ text

/-- Names behind a lead, parted by a separator. -/
def listedText (lead separator : String) : List String → String
  | [] => ""
  | first :: others =>
    " " ++ behind lead (first ++ String.join (others.map fun name => " " ++ behind separator name))

/-- Parts in braces, each on a line of its own. -/
def linesText {α : Type} (f : α → String) (items : List α) : String :=
  "\x7b" ++ String.join (items.map fun item => "\n  " ++ f item) ++ "\n\x7d"

/-- The parts of a type in braces. -/
def membersText {α : Type} (f : α → String) (items : List α) : String :=
  if items.isEmpty then "" else " " ++ linesText f items

/-- An object or interface behind its keyword. -/
def compositeText (name : String) (fields : List FieldDescription) (interfaces : List String) : String :=
  name ++ (listedText "implements" "&" interfaces ++ membersText FieldDescription.text fields)

def TypeDescription.text : TypeDescription → String
  | scalar name => behind "scalar" name
  | object name fields interfaces => behind "type" (compositeText name fields interfaces)
  | interface name fields interfaces => behind "interface" (compositeText name fields interfaces)
  | union name members => behind "union" (name ++ listedText "=" "|" members)
  | enum name values => behind "enum" (name ++ membersText id values)
  | inputObject name fields => behind "input" (name ++ membersText InputDescription.text fields)

def DirectiveDescription.text (d : DirectiveDescription) : String :=
  behind "directive" ("@" ++ (d.name ++ (inputsText d.arguments ++
    ((if d.repeatable then " " ++ "repeatable" else "") ++
      listedText "on" "|" (d.locations.map DirectiveLocation.name)))))

def SchemaEntry.text : SchemaEntry → String
  | roots listed => behind "schema" (linesText (fun root => root.1.keyword ++ ": " ++ root.2) listed)
  | type t => t.text
  | directive d => d.text

/-- The text of a description: its definitions, parted by blank lines. -/
def SchemaDescription.text (d : SchemaDescription) : String :=
  "\n\n".intercalate (d.entries.map SchemaEntry.text)

/-! ### The lexemes of the texts -/

theorem lexemes_of_prints {s : String} {ls : List Lexeme} (h : Prints s ls) : Token.lexemes s = ls := by
  have hl := h breaks_nil Lexes.nil
  rw [List.append_nil, List.append_nil] at hl
  exact bare_scan hl

section Prints

variable {n : Nat}

theorem IsTypeText.prints {text : String} (h : IsTypeText n text) : Prints text (Token.lexemes text) := by
  obtain ⟨t, ht, -, rfl⟩ := h
  rw [lexemes_of_prints ht.prints]
  exact ht.prints

theorem IsConstantText.prints {text : String} (h : IsConstantText n text) : Prints text (Token.lexemes text) := by
  obtain ⟨v, hv, -, rfl⟩ := h
  rw [lexemes_of_prints hv.prints]
  exact hv.prints

theorem InputDescription.WellFormed.prints {d : InputDescription} (h : d.WellFormed n) : Prints d.text d.lexemes := by
  have hinitial : Follows (d.defaultText.elim "" fun text => " = " ++ text)
      (d.defaultText.toList.flatMap fun text => ⟨.equals, "="⟩ :: Token.lexemes text) := by
    cases hv : d.defaultText with
    | none => exact Follows.empty
    | some text =>
      rw [Option.toList_some, List.flatMap_singleton]
      exact (h.defaultText text hv).prints.follows (c := ' ') (w := ['=', ' ']) (by decide) cuts_equals
  exact prints_labelled h.name (h.type.prints.append hinitial)

theorem follows_inputs {inputs : List InputDescription} (h : ∀ i ∈ inputs, i.WellFormed n) :
    Follows (inputsText inputs) (inputsLexemes inputs) := by
  unfold inputsText inputsLexemes enclosedLexemes
  split
  · exact Follows.empty
  · exact (prints_commas fun i hi => (h i hi).prints).parens

theorem FieldDescription.WellFormed.prints {d : FieldDescription} (h : d.WellFormed n) :
    Prints d.text d.lexemes := by
  have htype := h.type.prints.follows (c := ':') (w := [' ']) (by decide) cuts_colon
  have hp := (prints_name h.name).append ((follows_inputs h.arguments).append htype)
  simp only [FieldDescription.text, FieldDescription.lexemes, String.append_assoc] at hp ⊢
  exact hp

/-- A keyword or a sign that stands in front of other texts. -/
def Leads (lead : String) (x : Lexeme) : Prop := ∀ ⦃s ls⦄, Prints s ls → Prints (behind lead s) (x :: ls)

theorem leads_word {word : String} (h : IsName word) : Leads word ⟨.name, word⟩ := by
  intro s ls hs
  rw [behind, String.append_assoc]
  exact (prints_name h).append hs.follows_space

theorem leads_sign {c : Char} {kind : TokenKind} (h : ∀ rest, lexeme c rest = (kind, 1)) (hg : kind ≠ .garbage)
    (ht : kind.isTrivia = false) : Leads (String.ofList [c]) ⟨kind, String.ofList [c]⟩ := by
  intro s ls hs
  rw [behind, String.append_assoc]
  exact (cuts_sign h hg ht).append_prints hs.follows_space.prints

theorem leads_equals : Leads "=" ⟨.equals, "="⟩ := leads_sign (c := '=') (fun _ => rfl) (by decide) rfl
theorem leads_amp : Leads "&" ⟨.amp, "&"⟩ := leads_sign (c := '&') (fun _ => rfl) (by decide) rfl
theorem leads_pipe : Leads "|" ⟨.pipe, "|"⟩ := leads_sign (c := '|') (fun _ => rfl) (by decide) rfl

theorem follows_listed {lead separator : String} {x y : Lexeme} (hlead : Leads lead x) (hseparator : Leads separator y)
    {names : List String} (h : ∀ name ∈ names, IsName name) :
    Follows (listedText lead separator names) (listedLexemes x y names) := by
  cases names with
  | nil => exact Follows.empty
  | cons first others =>
    have hothers : Follows (String.join (others.map fun name => " " ++ behind separator name))
        (others.flatMap fun name => [y, ⟨.name, name⟩]) := by
      have hnames : ∀ name ∈ others, IsName name := fun name hname => h name (List.mem_cons_of_mem _ hname)
      clear h
      induction others with
      | nil => exact Follows.empty
      | cons name others ih =>
        rw [List.map_cons, String.join_cons, List.flatMap_cons]
        exact (hseparator (prints_name (hnames name List.mem_cons_self))).follows_space.append
          (ih fun name hname => hnames name (List.mem_cons_of_mem _ hname))
    exact (hlead ((prints_name (h first List.mem_cons_self)).append hothers)).follows_space

theorem prints_lines {α : Type} {f : α → String} {g : α → List Lexeme} {items : List α}
    (h : ∀ a ∈ items, Prints (f a) (g a)) : Prints (linesText f items) (bracedLexemes (items.flatMap g)) := by
  have hlines : Follows (String.join (items.map fun item => "\n  " ++ f item)) (items.flatMap g) := by
    induction items with
    | nil => exact Follows.empty
    | cons a items ih =>
      have hblank : Cuts "\n  " [] := cuts_blank (by decide)
      rw [List.map_cons, String.join_cons, List.flatMap_cons]
      exact ((h a List.mem_cons_self).follows (c := '\n') (w := [' ', ' ']) (by decide) hblank).append
        (ih fun b hb => h b (List.mem_cons_of_mem _ hb))
  have hbreak : Cuts "\n" [] := cuts_blank (by decide)
  have hclose := ends_rBrace.prints.follows (c := '\n') (w := []) (by decide) hbreak
  rw [linesText, String.append_assoc]
  exact cuts_lBrace.append_prints (hlines.append hclose).prints

theorem follows_members {α : Type} {f : α → String} {g : α → List Lexeme} {items : List α}
    (h : ∀ a ∈ items, Prints (f a) (g a)) : Follows (membersText f items) (membersLexemes g items) := by
  unfold membersText membersLexemes enclosedLexemes
  split
  · exact Follows.empty
  · exact (prints_lines h).follows_space

theorem prints_composite {name : String} {fields : List FieldDescription} {interfaces : List String}
    (hname : IsName name) (hfields : ∀ f ∈ fields, f.WellFormed n) (hinterfaces : ∀ i ∈ interfaces, IsName i) :
    Prints (compositeText name fields interfaces) (compositeLexemes name fields interfaces) := by
  exact (prints_name hname).append ((follows_listed (leads_word (by decide)) leads_amp hinterfaces).append
    (follows_members fun f hf => (hfields f hf).prints))

theorem TypeDescription.WellFormed.prints {t : TypeDescription} (h : t.WellFormed n) : Prints t.text t.lexemes := by
  cases h with
  | scalar hname => exact leads_word (by decide) (prints_name hname)
  | object hname hfields hinterfaces => exact leads_word (by decide) (prints_composite hname hfields hinterfaces)
  | interface hname hfields hinterfaces => exact leads_word (by decide) (prints_composite hname hfields hinterfaces)
  | union hname hmembers =>
    exact leads_word (by decide) ((prints_name hname).append (follows_listed leads_equals leads_pipe hmembers))
  | enum hname hvalues =>
    exact leads_word (by decide)
      ((prints_name hname).append (follows_members fun v hv => prints_name (hvalues v hv)))
  | inputObject hname hfields =>
    exact leads_word (by decide)
      ((prints_name hname).append (follows_members fun f hf => (hfields f hf).prints))

theorem isName_location (location : DirectiveLocation) : IsName location.name := by
  cases location <;> decide

theorem DirectiveDescription.WellFormed.prints {d : DirectiveDescription} (h : d.WellFormed n) :
    Prints d.text d.lexemes := by
  have hlocations : Follows (listedText "on" "|" (d.locations.map DirectiveLocation.name))
      (listedLexemes ⟨.name, "on"⟩ ⟨.pipe, "|"⟩ (d.locations.map DirectiveLocation.name)) := by
    refine follows_listed (leads_word (by decide)) leads_pipe fun name hname => ?_
    obtain ⟨location, -, rfl⟩ := List.mem_map.1 hname
    exact isName_location location
  have hrepeatable : Follows (if d.repeatable then " " ++ "repeatable" else "")
      (if d.repeatable then [⟨.name, "repeatable"⟩] else []) := by
    split
    · exact (prints_name (by decide : IsName "repeatable")).follows_space
    · exact Follows.empty
  have hname := (prints_name h.name).append ((follows_inputs h.arguments).append (hrepeatable.append hlocations))
  exact leads_word (by decide) (cuts_at.append_prints hname)

theorem prints_root {root : OperationKind × String} (h : IsName root.2) :
    Prints (root.1.keyword ++ ": " ++ root.2) (rootLexemes root) :=
  prints_labelled (isName_keyword root.1) (prints_name h)

end Prints

/-- Every well-formed description is written as its text. -/
theorem SchemaDescription.WellFormed.isWrittenAs_text {n : Nat} {d : SchemaDescription} (h : d.WellFormed n) :
    d.IsWrittenAs d.text := by
  have hentry : ∀ entry ∈ d.entries, Prints entry.text entry.lexemes := by
    intro entry hentry
    simp only [SchemaDescription.entries, List.mem_append, List.mem_map] at hentry
    rcases hentry with (hroots | ⟨t, ht, rfl⟩) | ⟨x, hx, rfl⟩
    · obtain rfl : entry = .roots d.roots := by
        split at hroots
        · cases hroots
        · exact List.mem_singleton.1 hroots
      exact leads_word (by decide) (prints_lines fun root hroot => prints_root (h.roots root hroot))
    · exact (h.types t ht).prints
    · exact (h.directives x hx).prints
  have hbreaks : Cuts "\n\n" [] := cuts_blank (by decide)
  exact ⟨d.entries, d.comprises_entries, lexemes_of_prints (prints_intercalate
    (fun hs => hs.follows (c := '\n') (w := ['\n']) (by decide) hbreaks) hentry)⟩

end QueryBatch
