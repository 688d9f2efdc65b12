import QueryBatch.Parse.SchemaText
import QueryBatch.Proofs.Parse.Reads
import QueryBatch.Proofs.Schema.Entries

/-!
# Reading the notation of a schema description

* `reads_inputDefs`, `reads_fieldDefs`, `reads_typeDef`, `reads_directiveDef`, …: each parser reads the lexemes of a
  part of a description, and yields what the part declares.
* `reads_schemaDefinition`: a definition adds to the parts of a schema what `SchemaEntry.add` says.
* `SchemaDescription.WellFormed.ofText_eq_build`: a description and the texts it is written as yield the same schema.
-/

namespace QueryBatch.Parse

open Token

/-! ## What is declared -/

/-- Results that are seen one by one are the results of all. -/
theorem mapM_eq_ok {ι α β ε : Type} {f : ι → Except ε β} {g : β → α} {items : List ι} {as : List α}
    (h : as.map Except.ok = items.map fun x => (f x).map g) : ∃ bs, items.mapM f = .ok bs ∧ as = bs.map g := by
  induction items generalizing as with
  | nil => exact ⟨[], rfl, List.map_eq_nil_iff.1 h⟩
  | cons x items ih =>
    cases as with
    | nil => cases h
    | cons a as =>
      rw [List.map_cons, List.map_cons, List.cons.injEq] at h
      obtain ⟨hfirst, hothers⟩ := h
      obtain ⟨bs, hbs, rfl⟩ := ih hothers
      cases hx : f x with
      | error e =>
        rw [hx] at hfirst
        cases hfirst
      | ok b =>
        rw [hx] at hfirst
        cases hfirst
        exact ⟨b :: bs, by rw [List.mapM_cons, hx, hbs]; rfl, rfl⟩

section Parts

variable {n room : Nat} {ls : List Lexeme}

/-! ## Types, defaults and trivia -/

theorem reads_typeText {text : String} (h : IsTypeText n text) (hroom : n ≤ room) (hls : Avoids [.bang] ls) :
    Reads (typeRef room) (Token.lexemes text ++ ls) ls fun o =>
      ∃ t span, o = some (t, span) ∧ TypeRef.parse text = .ok t := by
  obtain ⟨t, ht, hnesting, rfl⟩ := h
  rw [lexemes_of_prints ht.prints]
  refine (reads_typeRef ht (Nat.le_trans hnesting hroom) hls).imp ?_
  rintro _ ⟨span, rfl⟩
  exact ⟨t, span, rfl, by rw [TypeRef.parse, ht.ofText?_text]⟩

theorem reads_defaultText {initial : Option String} (h : ∀ text, initial = some text → IsConstantText n text)
    (hroom : n ≤ room) (hls : Avoids [.equals] ls) :
    Reads (optionalDefault room)
      ((initial.toList.flatMap fun text => ⟨.equals, "="⟩ :: Token.lexemes text) ++ ls) ls fun o =>
        ∃ given, o = some given ∧ given.map Value.text = initial := by
  obtain ⟨v, hv, rfl, hlexemes⟩ : ∃ v : Option Value, (∀ w, v = some w → w.WellFormed true ∧ w.nesting ≤ n) ∧
      initial = v.map Value.text ∧
        (initial.toList.flatMap fun text => (⟨.equals, "="⟩ : Lexeme) :: Token.lexemes text) =
          v.toList.flatMap fun w => ⟨.equals, "="⟩ :: w.lexemes := by
    cases initial with
    | none => exact ⟨none, fun _ hw => absurd hw (Option.some_ne_none _).symm, rfl, rfl⟩
    | some text =>
      obtain ⟨w, hw, hnesting, rfl⟩ := h text rfl
      exact ⟨some w, fun u hu => Option.some.inj hu ▸ ⟨hw, hnesting⟩, rfl, by simp [lexemes_of_prints hw.prints]⟩
  rw [hlexemes]
  refine (reads_optionalDefault (fun w hw => (hv w hw).1) (fun w hw => Nat.le_trans (hv w hw).2 hroom) hls).imp ?_
  rintro _ ⟨given, rfl, hgiven⟩
  have htexts := congrArg (Option.map Value.text) hgiven
  simp only [Option.map_map, Function.comp_def, Value.text_unspanned] at htexts
  exact ⟨given, rfl, htexts⟩

theorem reads_skipDescription (h : Avoids [.string, .blockString] ls) :
    Reads skipDescription ls ls fun _ => True := by
  refine .get_bind fun c hc => ?_
  rw [Cursor.isAtDescription, hc.not_isAt h (by decide), hc.not_isAt h (by decide), Bool.or_false,
    if_neg Bool.false_ne_true]
  exact .pure trivial

theorem reads_noDirectives (h : Avoids [.lParen, .atSign] ls) : Reads (directives true room) ls ls fun _ => True :=
  (reads_directives (List.forall_mem_nil _) (Nat.zero_le room) h).imp fun _ _ => trivial

/-! ## Inputs -/

theorem reads_inputDef {d : InputDescription} (h : d.WellFormed n) (hroom : n ≤ room) {name : Name}
    (hname : name.text = d.name) (hls : Avoids declarationFollow ls) :
    Reads (inputDef room name) (⟨.colon, ":"⟩ :: (Token.lexemes d.type ++
      ((d.defaultText.toList.flatMap fun text => ⟨.equals, "="⟩ :: Token.lexemes text) ++ ls))) ls fun o =>
        ∃ a, o = some a ∧ .ok a = d.resolve := by
  have hdefault : Avoids [.bang]
      ((d.defaultText.toList.flatMap fun text => ⟨.equals, "="⟩ :: Token.lexemes text) ++ ls) := by
    cases d.defaultText with
    | none => exact hls.mono (by decide)
    | some text => exact avoids_cons (by decide) _
  refine (reads_expect rfl).bind ?_
  rintro _ ⟨colon, rfl, -⟩
  refine (reads_typeText h.type hroom hdefault).bind ?_
  rintro _ ⟨t, span, rfl, ht⟩
  refine (reads_defaultText h.defaultText hroom (hls.mono (by decide))).bind ?_
  rintro _ ⟨given, rfl, hgiven⟩
  refine (reads_noDirectives (hls.mono (by decide))).bind fun _ _ => .pure ⟨_, rfl, ?_⟩
  rw [hname, hgiven, InputDescription.resolve, ht]
  rfl

theorem reads_inputItem {d : InputDescription} (h : d.WellFormed n) (hroom : n ≤ room)
    (hls : Avoids declarationFollow ls) :
    Reads (inputItem room) (d.lexemes ++ ls) ls fun o => ∃ a, o = some a ∧ .ok a = d.resolve := by
  rw [InputDescription.lexemes, List.cons_append, List.cons_append, List.append_assoc]
  refine (reads_skipDescription (avoids_cons (by simp) _)).bind fun _ _ => reads_expectName.bind ?_
  rintro _ ⟨name, rfl, hname⟩
  exact reads_inputDef h hroom hname hls

/-- The inputs up to a closing token. -/
theorem reads_inputDefs {inputs : List InputDescription} (h : ∀ i ∈ inputs, i.WellFormed n) (hroom : n ≤ room)
    {x : Lexeme} (hx : x.kind ∉ .name :: declarationFollow) (closer : String) (opened : Span) :
    Reads (inputDefs room x.kind closer opened) (inputs.flatMap InputDescription.lexemes ++ x :: ls) ls
      fun a => .ok a = resolveInputs inputs := by
  have hstart : ∀ kind ∈ [TokenKind.name], kind ∉ [x.kind] := by
    intro kind hkind hmem
    rw [List.mem_singleton.1 hkind] at hmem
    exact hx (List.mem_singleton.1 hmem ▸ List.mem_cons_self)
  refine (reads_collect
    (⟨fun i _ => ⟨_, _, rfl, List.mem_singleton_self _⟩, by decide, fun i hi ls hls => ?_⟩ :
      ReadsItems _ InputDescription.lexemes Except.ok (fun i => i.resolve.map id) [.name] declarationFollow inputs)
    (avoids_cons (fun hmem => hx (List.mem_cons_of_mem _ hmem)) _) (more_of_starts hstart)
    (not_more_of_closes (List.mem_singleton_self _))).bind fun as has => (reads_close rfl _ _).bind fun _ _ => .pure ?_
  · refine (reads_inputItem (h i hi) hroom hls).imp ?_
    rintro _ ⟨a, rfl, ha⟩
    exact ⟨a, rfl, by rw [← ha]; rfl⟩
  · obtain ⟨bs, hbs, rfl⟩ := mapM_eq_ok has
    rw [resolveInputs, hbs, List.map_id]
    rfl

/-- Items between brackets, or nothing in front of what is no opening bracket. -/
theorem reads_enclosed {ι α : Type} {p : Parse α} {a : α} {f : ι → List Lexeme} {items : List ι} {o x : Lexeme}
    {Q : α → Prop} (hls : Avoids [o.kind] ls) (hnone : items = [] → Q a)
    (hsome : Reads p (o :: (items.flatMap f ++ x :: ls)) ls Q) :
    Reads (do if (← get).isAt o.kind then p else return a) (enclosedLexemes o x f items ++ ls) ls Q := by
  refine .get_bind fun c hc => ?_
  unfold enclosedLexemes at hc ⊢
  by_cases he : items.isEmpty = true
  · rw [if_pos he, List.nil_append] at hc ⊢
    rw [hc.not_isAt hls (List.mem_singleton_self _), if_neg Bool.false_ne_true]
    exact .pure (hnone (List.isEmpty_iff.1 he))
  · rw [if_neg he, List.cons_append, List.cons_append, List.append_assoc] at hc ⊢
    rw [hc.isAt_pos rfl, if_pos rfl]
    exact hsome

/-- The arguments of a field or directive. -/
theorem reads_argumentDefs {inputs : List InputDescription} (h : ∀ i ∈ inputs, i.WellFormed n) (hroom : n ≤ room)
    (hls : Avoids [.lParen] ls) :
    Reads (argumentDefs room) (inputsLexemes inputs ++ ls) ls fun a => .ok a = resolveInputs inputs := by
  refine reads_enclosed (o := ⟨.lParen, "("⟩) hls (fun he => he ▸ rfl)
    (reads_skip.bind fun _ _ => .get_bind fun c _ => ?_)
  exact reads_inputDefs (x := ⟨.rParen, ")"⟩) h hroom (by decide) _ _

/-! ## Parts of types -/

/-- The inputs in the braces of an input object. -/
theorem reads_inputFields {fields : List InputDescription} (h : ∀ f ∈ fields, f.WellFormed n) (hroom : n ≤ room)
    (hls : Avoids [.lBrace] ls) :
    Reads (inputFields room) (membersLexemes InputDescription.lexemes fields ++ ls) ls fun a =>
      .ok a = resolveInputs fields := by
  refine reads_enclosed (o := ⟨.lBrace, "\x7b"⟩) hls (fun he => he ▸ rfl) (reads_bump.bind fun opened _ => ?_)
  exact reads_inputDefs (x := ⟨.rBrace, "\x7d"⟩) h hroom (by decide) _ _

theorem reads_fieldItem {d : FieldDescription} (h : d.WellFormed n) (hroom : n ≤ room)
    (hls : Avoids declarationFollow ls) :
    Reads (fieldItem room) (d.lexemes ++ ls) ls fun o =>
      ∃ a, o = some a ∧ .ok a = d.resolve.map fun made => (made.name, made) := by
  rw [FieldDescription.lexemes, List.cons_append, List.append_assoc, List.cons_append]
  refine (reads_skipDescription (avoids_cons (by simp) _)).bind fun _ _ => reads_expectName.bind ?_
  rintro _ ⟨name, rfl, hname⟩
  refine (reads_argumentDefs h.arguments hroom (avoids_cons (by simp) _)).bind fun arguments harguments =>
    (reads_expect rfl).bind ?_
  rintro _ ⟨colon, rfl, -⟩
  refine (reads_typeText h.type hroom (hls.mono (by decide))).bind ?_
  rintro _ ⟨t, span, rfl, ht⟩
  refine (reads_noDirectives (hls.mono (by decide))).bind fun _ _ => .pure ⟨_, rfl, ?_⟩
  rw [hname, FieldDescription.resolve, ht, ← harguments]
  rfl

/-- The fields in the braces of an object or interface. -/
theorem reads_fieldDefs {fields : List FieldDescription} (h : ∀ f ∈ fields, f.WellFormed n) (hroom : n ≤ room)
    (hls : Avoids [.lBrace] ls) :
    Reads (fieldDefs room) (membersLexemes FieldDescription.lexemes fields ++ ls) ls fun a =>
      .ok a = resolveFields fields := by
  refine reads_enclosed (o := ⟨.lBrace, "\x7b"⟩) hls (fun he => he ▸ rfl)
    (reads_bump.bind fun opened _ => (reads_collect
      (⟨fun f _ => ⟨_, _, rfl, List.mem_singleton_self _⟩, by decide,
          fun f hf ls hls => reads_fieldItem (h f hf) hroom hls⟩ :
        ReadsItems _ FieldDescription.lexemes Except.ok (fun f => f.resolve.map fun made => (made.name, made)) [.name]
          declarationFollow fields)
      (avoids_cons (by decide) _) (more_of_starts (by decide)) (not_more_of_closes (by decide))).bind fun as has =>
        (reads_close rfl _ _).bind fun _ _ => .pure ?_)
  obtain ⟨bs, hbs, rfl⟩ := mapM_eq_ok has
  rw [resolveFields, hbs]
  rfl

theorem reads_enumItem {value : String} (hls : Avoids declarationFollow ls) :
    Reads (enumItem room) (⟨.name, value⟩ :: ls) ls fun o => ∃ a, o = some a ∧ a = value := by
  refine (reads_skipDescription (avoids_cons (by simp) _)).bind fun _ _ => reads_expectName.bind ?_
  rintro _ ⟨name, rfl, hname⟩
  exact (reads_noDirectives (hls.mono (by decide))).bind fun _ _ => .pure ⟨_, rfl, hname⟩

/-- The values in the braces of an enum. -/
theorem reads_enumValues {values : List String} (hls : Avoids [.lBrace] ls) :
    Reads (enumValues room) (membersLexemes (fun value => [⟨.name, value⟩]) values ++ ls) ls fun a => a = values := by
  refine reads_enclosed (o := ⟨.lBrace, "\x7b"⟩) hls Eq.symm
    (reads_bump.bind fun opened _ => (reads_collect
      (⟨fun value _ => ⟨_, _, rfl, List.mem_singleton_self _⟩, by decide, fun _ _ _ hls => reads_enumItem hls⟩ :
        ReadsItems _ (fun value => [⟨.name, value⟩]) id id [.name] declarationFollow values)
      (avoids_cons (by decide) _) (more_of_starts (by decide)) (not_more_of_closes (by decide))).bind fun as has =>
        (reads_close rfl _ _).bind fun _ _ => .pure ?_)
  simpa using has

theorem reads_separatedName {x : Lexeme} {name : String} :
    Reads separatedName (x :: ⟨.name, name⟩ :: ls) ls fun o => ∃ a, o = some a ∧ a = name := by
  refine reads_skip.bind fun _ _ => reads_expectName.bind ?_
  rintro _ ⟨name, rfl, hname⟩
  exact .pure ⟨_, rfl, hname⟩

/-- Names behind a lead, parted by separators. -/
theorem reads_separatedNames {x : Lexeme} (hx : x.kind ≠ .name) {first : String}
    {others : List String} (hls : Avoids [x.kind] ls) :
    Reads (separatedNames x.kind)
      (⟨.name, first⟩ :: ((others.flatMap fun name => [x, ⟨.name, name⟩]) ++ ls)) ls fun a =>
        a = first :: others := by
  have hfirst : TokenKind.name ∉ [x.kind] := fun hmem => hx (List.mem_singleton.1 hmem).symm
  refine (reads_eat_none (avoids_cons hfirst _) (List.mem_singleton_self _)).bind fun _ _ => reads_expectName.bind ?_
  rintro _ ⟨name, rfl, hname⟩
  refine (reads_collect
    (⟨fun other _ => ⟨_, _, rfl, List.mem_singleton_self _⟩, fun _ _ => List.not_mem_nil,
        fun _ _ _ _ => reads_separatedName⟩ :
      ReadsItems _ (fun name => [x, ⟨.name, name⟩]) id id [x.kind] [] others)
    (fun _ _ => List.not_mem_nil) (fun c y ls hc hy => hc.isAt_pos (List.mem_singleton.1 hy))
    (fun c hc => hc.not_isAt hls (List.mem_singleton_self _))).bind fun as has => .pure ?_
  rw [List.map_id, List.map_id] at has
  rw [has]
  exact congrArg (· :: others) hname

/-- In front of the next definition, or at the end of the text. -/
def AtDefinition (ls : List Lexeme) : Prop := ∀ x, ls.head? = some x → x.kind = .name ∧ x.text ≠ "implements"

theorem AtDefinition.avoids {kinds : List TokenKind} (h : AtDefinition ls) (hkinds : .name ∉ kinds) :
    Avoids kinds ls := fun x hx hmem => hkinds ((h x hx).1 ▸ hmem)

theorem reads_interfaces {names : List String} (hls : Avoids [.amp] ls)
    (hword : ∀ x, ls.head? = some x → x ≠ ⟨.name, "implements"⟩) :
    Reads interfaces (listedLexemes ⟨.name, "implements"⟩ ⟨.amp, "&"⟩ names ++ ls) ls fun a => a = names := by
  cases names with
  | nil =>
    refine (reads_eatWord_none hword).bind ?_
    rintro _ rfl
    exact .pure rfl
  | cons first others =>
    refine reads_eatWord.bind ?_
    rintro _ ⟨word, rfl, -⟩
    exact reads_separatedNames (x := ⟨.amp, "&"⟩) (by decide) hls

theorem reads_unionMembers {names : List String} (hls : Avoids [.equals, .pipe] ls) :
    Reads unionMembers (listedLexemes ⟨.equals, "="⟩ ⟨.pipe, "|"⟩ names ++ ls) ls fun a => a = names := by
  cases names with
  | nil =>
    refine (reads_eat_none hls List.mem_cons_self).bind ?_
    rintro _ rfl
    exact .pure rfl
  | cons first others =>
    refine (reads_eat rfl).bind ?_
    rintro _ ⟨sign, rfl, -⟩
    exact reads_separatedNames (x := ⟨.pipe, "|"⟩) (by decide) (hls.mono (by decide))

/-! ## Types -/

theorem avoids_members {α : Type} {kinds : List TokenKind} (hkinds : .lBrace ∉ kinds) (f : α → List Lexeme)
    (items : List α) (hls : Avoids kinds ls) : Avoids kinds (membersLexemes f items ++ ls) := by
  unfold membersLexemes enclosedLexemes
  split
  · exact hls
  · exact avoids_cons hkinds _

theorem avoids_listed {kinds : List TokenKind} {x y : Lexeme} (hx : x.kind ∉ kinds) (names : List String)
    (hls : Avoids kinds ls) : Avoids kinds (listedLexemes x y names ++ ls) := by
  cases names with
  | nil => exact hls
  | cons first others => exact avoids_cons hx _

/-- What stands behind the name of an object or interface. -/
theorem reads_composite {fields : List FieldDescription} {names : List String} (h : ∀ f ∈ fields, f.WellFormed n)
    (hroom : n ≤ room) (hls : AtDefinition ls) {f : OrderedMap FieldDef → List String → TypeDef} :
    Reads (do
        let listed ← interfaces
        let _ ← directives true room
        return f (← fieldDefs room) listed)
      (listedLexemes ⟨.name, "implements"⟩ ⟨.amp, "&"⟩ names ++ (membersLexemes FieldDescription.lexemes fields ++ ls))
      ls fun a => ∃ made, a = f made names ∧ .ok made = resolveFields fields := by
  have hword : ∀ x, (membersLexemes FieldDescription.lexemes fields ++ ls).head? = some x →
      x ≠ ⟨.name, "implements"⟩ := by
    unfold membersLexemes enclosedLexemes
    split
    · exact fun x hx he => (hls x hx).2 (congrArg Lexeme.text he)
    · rintro _ ⟨⟩
      simp
  refine (reads_interfaces (avoids_members (by decide) _ _ (hls.avoids (by decide))) hword).bind ?_
  rintro _ rfl
  exact (reads_noDirectives (avoids_members (by decide) _ _ (hls.avoids (by decide)))).bind fun _ _ =>
    (reads_fieldDefs h hroom (hls.avoids (by decide))).bind fun made hmade => .pure ⟨made, rfl, hmade⟩

/-- A type in front of the next definition. -/
theorem reads_typeDef {t : TypeDescription} (h : t.WellFormed n) (hroom : n ≤ room) (hls : AtDefinition ls) :
    Reads (typeDef room) (t.lexemes ++ ls) ls fun o => ∃ a, o = some a ∧ .ok a = t.resolve := by
  -- the body decides by the keyword, so that keyword and name are read before the sorts of types part
  have hstart : ∀ {word name : String} {tail : List Lexeme} {resolved : Except SchemaFault TypeDef},
      Reads (typeBody room word name) (tail ++ ls) ls (fun a => .ok a = resolved) →
      Reads (typeDef room) (⟨.name, word⟩ :: ⟨.name, name⟩ :: tail ++ ls) ls fun o =>
        ∃ a, o = some a ∧ .ok a = resolved := by
    intro word name tail resolved hbody
    refine reads_bump.bind fun keyword hkeyword => reads_expectName.bind ?_
    rintro _ ⟨found, rfl, rfl⟩
    obtain rfl : keyword.text = word := congrArg Lexeme.text hkeyword
    exact hbody.bind fun a ha => .pure ⟨a, rfl, ha⟩
  cases h with
  | scalar hname => exact hstart ((reads_noDirectives (hls.avoids (by decide))).bind fun _ _ => .pure rfl)
  | object hname hfields hinterfaces =>
    refine hstart ?_
    rw [List.append_assoc]
    refine (reads_composite hfields hroom hls).imp ?_
    rintro _ ⟨made, rfl, hmade⟩
    rw [TypeDescription.resolve, ← hmade]
    rfl
  | interface hname hfields hinterfaces =>
    refine hstart ?_
    rw [List.append_assoc]
    refine (reads_composite hfields hroom hls).imp ?_
    rintro _ ⟨made, rfl, hmade⟩
    rw [TypeDescription.resolve, ← hmade]
    rfl
  | union hname hmembers =>
    refine hstart ((reads_noDirectives (avoids_listed (by decide) _ (hls.avoids (by decide)))).bind fun _ _ =>
      (reads_unionMembers (hls.avoids (by decide))).bind ?_)
    rintro _ rfl
    exact .pure rfl
  | enum hname hvalues =>
    refine hstart ((reads_noDirectives (avoids_members (by decide) _ _ (hls.avoids (by decide)))).bind fun _ _ =>
      (reads_enumValues (hls.avoids (by decide))).bind ?_)
    rintro _ rfl
    exact .pure rfl
  | inputObject hname hfields =>
    refine hstart ((reads_noDirectives (avoids_members (by decide) _ _ (hls.avoids (by decide)))).bind fun _ _ =>
      (reads_inputFields hfields hroom (hls.avoids (by decide))).bind fun made hmade => .pure ?_)
    rw [TypeDescription.resolve, ← hmade]
    rfl

/-! ## Directives and roots -/

/-- A location is found, whether another one follows or not. -/
theorem reads_location {location : DirectiveLocation} {rounds : Nat} {found : List DirectiveLocation}
    {ms : List Lexeme} {Q : Option (List DirectiveLocation) → Prop}
    (h : Reads (do
        if (← eat .pipe).isSome then locations rounds (location :: found)
        else return some (location :: found).reverse) ms ls Q) :
    Reads (locations (rounds + 1) found) (⟨.name, location.name⟩ :: ms) ls Q := by
  refine reads_expectName.bind ?_
  rintro _ ⟨name, rfl, hname⟩
  dsimp only
  rw [hname, DirectiveLocation.ofName?_name]
  exact h

theorem reads_locations {first : DirectiveLocation} {others : List DirectiveLocation} (hls : Avoids [.pipe] ls)
    {rounds : Nat} (hrounds : others.length ≤ rounds) (found : List DirectiveLocation) :
    Reads (locations (rounds + 1) found)
      (⟨.name, first.name⟩ :: ((others.flatMap fun other => [⟨.pipe, "|"⟩, ⟨.name, other.name⟩]) ++ ls)) ls fun o =>
        o = some (found.reverse ++ first :: others) := by
  induction others generalizing first rounds found with
  | nil =>
    refine reads_location ((reads_eat_none hls (List.mem_singleton_self _)).bind ?_)
    rintro _ rfl
    exact .pure (by rw [List.reverse_cons])
  | cons second others ih =>
    obtain ⟨rounds, rfl⟩ := Nat.exists_eq_add_one_of_ne_zero (Nat.ne_zero_of_lt hrounds)
    refine reads_location ((reads_eat rfl).bind ?_)
    rintro _ ⟨bar, rfl, -⟩
    refine (ih (Nat.le_of_succ_le_succ hrounds) (first :: found)).imp ?_
    rintro _ rfl
    rw [List.reverse_cons, List.append_assoc]
    rfl

theorem reads_repeatable {holds : Bool} (hls : ∀ x, ls.head? = some x → x ≠ ⟨.name, "repeatable"⟩) :
    Reads (eatWord "repeatable") ((if holds then [⟨.name, "repeatable"⟩] else []) ++ ls) ls fun o =>
      o.isSome = holds := by
  cases holds with
  | false =>
    refine (reads_eatWord_none hls).imp ?_
    rintro _ rfl
    rfl
  | true =>
    refine reads_eatWord.imp ?_
    rintro _ ⟨word, rfl, -⟩
    rfl

/-- A directive in front of the next definition. -/
theorem reads_directiveDef {d : DirectiveDescription} (h : d.WellFormed n) (hroom : n ≤ room)
    (hls : AtDefinition ls) :
    Reads (directiveDef room) (d.lexemes ++ ls) ls fun o => ∃ a, o = some a ∧ .ok a = d.resolve := by
  obtain ⟨first, others, hlocations⟩ := List.exists_cons_of_ne_nil h.locations
  have hlexemes : d.lexemes ++ ls = ⟨.name, "directive"⟩ :: ⟨.atSign, "@"⟩ :: ⟨.name, d.name⟩ ::
      (inputsLexemes d.arguments ++ ((if d.repeatable then [⟨.name, "repeatable"⟩] else []) ++
        ⟨.name, "on"⟩ :: ⟨.name, first.name⟩ ::
          ((others.flatMap fun other => [⟨.pipe, "|"⟩, ⟨.name, other.name⟩]) ++ ls))) := by
    simp [DirectiveDescription.lexemes, hlocations, listedLexemes, List.flatMap_map]
  rw [hlexemes]
  refine reads_skip.bind fun _ _ => (reads_expect rfl).bind ?_
  rintro _ ⟨sign, rfl, -⟩
  refine reads_expectName.bind ?_
  rintro _ ⟨name, rfl, hname⟩
  have hbehind : ∀ ms : List Lexeme, Avoids [.lParen]
      ((if d.repeatable then [⟨.name, "repeatable"⟩] else []) ++ ⟨.name, "on"⟩ :: ms) := by
    intro ms
    cases d.repeatable <;> exact avoids_cons (by decide) _
  refine (reads_argumentDefs h.arguments hroom (hbehind _)).bind fun arguments harguments =>
    (reads_repeatable (by simp)).bind fun o ho => reads_expectWord.bind ?_
  rintro _ ⟨word, rfl⟩
  have hfirst : TokenKind.name ∉ [TokenKind.pipe] := by decide
  refine (reads_eat_none (avoids_cons hfirst _) (List.mem_singleton_self _)).bind fun _ _ => .get_bind fun c hc => ?_
  have hrounds : others.length ≤ c.rest.length := by
    rw [hc.length, List.length_cons, List.length_append]
    exact Nat.le_succ_of_le (Nat.le_trans (length_le_length_flatMap fun _ _ => List.cons_ne_nil _ _)
      (Nat.le_add_right _ _))
  refine (reads_locations (hls.avoids (by decide)) hrounds []).bind ?_
  rintro _ rfl
  refine .pure ⟨_, rfl, ?_⟩
  rw [hname, ho, DirectiveDescription.resolve, ← harguments, hlocations]
  rfl

theorem rootKind?_keyword (kind : OperationKind) : rootKind? kind.keyword = some kind := by
  cases kind <;> rfl

theorem reads_rootItem {kind : OperationKind} {name : String} :
    Reads rootItem (⟨.name, kind.keyword⟩ :: ⟨.colon, ":"⟩ :: ⟨.name, name⟩ :: ls) ls fun o =>
      ∃ a, o = some a ∧ a = (kind, name) := by
  refine reads_expectName.bind ?_
  rintro _ ⟨operation, rfl, hoperation⟩
  refine (reads_expect rfl).bind ?_
  rintro _ ⟨colon, rfl, -⟩
  refine reads_expectName.bind ?_
  rintro _ ⟨type, rfl, htype⟩
  dsimp only
  rw [hoperation, rootKind?_keyword]
  exact .pure ⟨_, rfl, by rw [htype]⟩

theorem reads_schemaRoots {listed : List (OperationKind × String)} :
    Reads (schemaRoots room) (⟨.name, "schema"⟩ :: (bracedLexemes (listed.flatMap rootLexemes) ++ ls)) ls fun a =>
      a = listed := by
  rw [bracedLexemes, List.cons_append, List.cons_append, List.append_assoc]
  refine reads_skip.bind fun _ _ => (reads_noDirectives (avoids_cons (by decide) _)).bind fun _ _ =>
    (reads_expect rfl).bind ?_
  rintro _ ⟨opened, rfl, -⟩
  exact (reads_collect
    (⟨fun root _ => ⟨_, _, rfl, List.mem_singleton_self _⟩, fun _ _ => List.not_mem_nil,
        fun _ _ _ _ => reads_rootItem⟩ :
      ReadsItems _ rootLexemes id id [.name] [] listed)
    (fun _ _ => List.not_mem_nil) (more_of_starts (by decide)) (not_more_of_closes (by decide))).bind fun as has =>
      (reads_close rfl _ _).bind fun _ _ => .pure (by simpa using has)

/-! ## Schemas -/

/-- A definition starts with its keyword. -/
theorem start_entry (entry : SchemaEntry) : ∃ word tail, entry.lexemes = ⟨.name, word⟩ :: tail ∧
    word ∈ "schema" :: "directive" :: typeWords := by
  cases entry with
  | roots listed => exact ⟨_, _, rfl, by decide⟩
  | type t => cases t <;> exact ⟨_, _, rfl, by decide⟩
  | directive d => exact ⟨_, _, rfl, by decide⟩

theorem atEnd_entry {entry : SchemaEntry} {c : Cursor} (hc : c.Shows (entry.lexemes ++ ls)) : c.atEnd = false := by
  obtain ⟨word, tail, hlexemes, -⟩ := start_entry entry
  rw [hlexemes] at hc
  exact hc.atEnd_cons

theorem atDefinition_entries (entries : List SchemaEntry) : AtDefinition (entries.flatMap SchemaEntry.lexemes) := by
  cases entries with
  | nil => nofun
  | cons entry entries =>
    obtain ⟨word, tail, hlexemes, hword⟩ := start_entry entry
    rw [List.flatMap_cons, hlexemes]
    rintro _ ⟨⟩
    refine ⟨rfl, ?_⟩
    rintro rfl
    exact absurd hword (by decide)

/-- One definition adds to the parts of the schema what it is meant to add. -/
theorem reads_schemaDefinition {entry : SchemaEntry} (h : entry.WellFormed n) (hroom : n ≤ room)
    (hls : AtDefinition ls) (parts : Builder) :
    Reads (schemaDefinition room parts) (entry.lexemes ++ ls) ls fun r => r = entry.add parts := by
  obtain ⟨word, tail, hlexemes, hword⟩ := start_entry entry
  have hdescription : Avoids [.string, .blockString] (entry.lexemes ++ ls) := by
    rw [hlexemes]
    exact avoids_cons (by simp) _
  refine (reads_skipDescription hdescription).bind fun _ _ => .get_bind fun c hc => ?_
  have hat : ∀ w, c.isAtWord w = (word == w) := by
    intro w
    rw [hlexemes, List.cons_append] at hc
    simp [hc.isAtWord_cons]
  cases entry with
  | roots listed =>
    obtain rfl : "schema" = word := by cases hlexemes; rfl
    rw [hat, if_pos (by decide)]
    refine reads_schemaRoots.bind ?_
    rintro _ rfl
    exact .pure rfl
  | directive d =>
    obtain rfl : "directive" = word := by cases hlexemes; rfl
    rw [hat, if_neg (by decide), hat, if_pos (by decide)]
    refine (reads_directiveDef h hroom hls).bind ?_
    rintro _ ⟨a, rfl, ha⟩
    exact .pure (by rw [SchemaEntry.add, ← ha]; rfl)
  | type t =>
    have htype : word ∈ typeWords := by cases t <;> cases hlexemes <;> decide
    have hne : ∀ w, w ∉ typeWords → (word == w) = false := fun w hw => beq_false_of_ne fun he => hw (he ▸ htype)
    have hany : c.isAtAnyWord typeWords = true :=
      List.any_eq_true.2 ⟨word, htype, by rw [hat]; exact beq_self_eq_true _⟩
    rw [hat, hne _ (by decide), if_neg Bool.false_ne_true, hat, hne _ (by decide), if_neg Bool.false_ne_true, hany,
      if_pos rfl]
    refine (reads_typeDef h hroom hls).bind ?_
    rintro _ ⟨a, rfl, ha⟩
    exact .pure (by rw [SchemaEntry.add, ← ha]; rfl)

/-- A definition that fits is added, and the others after it. -/
theorem reads_schemaDefinitions_ok {entry : SchemaEntry} (h : entry.WellFormed n) (hroom : n ≤ room)
    (hls : AtDefinition ls) {rounds : Nat} {parts parts' : Builder} (hadd : entry.add parts = .ok parts')
    {more : List Lexeme} {Q : Except SchemaFault Builder → Prop}
    (hothers : Reads (schemaDefinitions room rounds parts') ls more Q) :
    Reads (schemaDefinitions room (rounds + 1) parts) (entry.lexemes ++ ls) more Q := by
  refine .get_bind fun c hc => ?_
  rw [atEnd_entry hc, if_neg Bool.false_ne_true]
  refine (reads_schemaDefinition h hroom hls parts).bind ?_
  rintro _ rfl
  rw [hadd]
  exact hothers

/-- A definition that does not fit is the last one. -/
theorem reads_schemaDefinitions_error {entry : SchemaEntry} (h : entry.WellFormed n) (hroom : n ≤ room)
    (hls : AtDefinition ls) {rounds : Nat} {parts : Builder} {fault : SchemaFault}
    (hadd : entry.add parts = .error fault) :
    Reads (schemaDefinitions room (rounds + 1) parts) (entry.lexemes ++ ls) ls fun r => r = .error fault := by
  refine .get_bind fun c hc => ?_
  rw [atEnd_entry hc, if_neg Bool.false_ne_true]
  refine (reads_schemaDefinition h hroom hls parts).bind ?_
  rintro _ rfl
  rw [hadd]
  exact .pure rfl

/-- Definitions are added up to the end, or up to the first that does not fit the others. -/
theorem reads_schemaDefinitions {entries : List SchemaEntry} (h : ∀ entry ∈ entries, entry.WellFormed n)
    (hroom : n ≤ room) {rounds : Nat} (hrounds : entries.length < rounds) (parts : Builder) :
    ∃ more, Reads (schemaDefinitions room rounds parts) (entries.flatMap SchemaEntry.lexemes) more fun r =>
      r = entries.foldlM SchemaEntry.add parts := by
  induction entries generalizing rounds parts with
  | nil =>
    cases rounds with
    | zero => exact absurd hrounds (Nat.not_lt_zero _)
    | succ rounds =>
      refine ⟨[], .get_bind fun c hc => ?_⟩
      have hend : c.atEnd = true := by simpa [Cursor.atEnd] using hc.rest
      rw [hend, if_pos rfl]
      exact .pure rfl
  | cons entry entries ih =>
    obtain ⟨rounds, rfl⟩ := Nat.exists_eq_add_one_of_ne_zero (Nat.ne_zero_of_lt hrounds)
    have hentry := h entry List.mem_cons_self
    rw [List.flatMap_cons, List.foldlM_cons]
    cases hadd : entry.add parts with
    | error fault => exact ⟨_, reads_schemaDefinitions_error hentry hroom (atDefinition_entries entries) hadd⟩
    | ok parts' =>
      obtain ⟨more, hothers⟩ := ih (fun other hother => h other (List.mem_cons_of_mem _ hother))
        (Nat.lt_of_succ_lt_succ hrounds) parts'
      exact ⟨more, reads_schemaDefinitions_ok hentry hroom (atDefinition_entries entries) hadd hothers⟩

end Parts

end QueryBatch.Parse

namespace QueryBatch

/-- The type definition language and the plain lists of a description lead to the same schema or to the same fault:
a text that a description is written as, within the default limits, yields the schema of the description. -/
theorem SchemaDescription.WellFormed.ofText_eq_build {d : SchemaDescription} (h : d.WellFormed 512) {text : String}
    (hd : d.IsWrittenAs text) (hlength : (Token.lexemes text).length ≤ 1000000) :
    Schema.ofText text = d.build.mapError .refused := by
  obtain ⟨entries, hcomprises, htext⟩ := hd
  have hshows : (Parse.Cursor.ofText text (some 1000000)).Shows (Token.lexemes text) :=
    Parse.Cursor.shows_ofText text fun k hk => Option.mem_some.1 hk ▸ hlength
  have hentries : entries.length ≤ (Parse.Cursor.ofText text (some 1000000)).rest.length := by
    rw [hshows.length, htext]
    refine Parse.length_le_length_flatMap fun entry _ he => ?_
    obtain ⟨word, tail, hlexemes, -⟩ := Parse.start_entry entry
    exact List.cons_ne_nil _ _ (hlexemes.symm.trans he)
  obtain ⟨more, hread⟩ := Parse.reads_schemaDefinitions (fun entry hentry => h.entry hcomprises hentry)
    (Nat.le_refl 512) (Nat.lt_succ_of_le hentries) {}
  obtain ⟨parts, final, hrun, -, hreports, rfl⟩ := hread _ (htext ▸ hshows)
  have hnone : final.reports = [] := hreports
  simp only [Schema.ofText, StateT.run, Parse.Cursor.roomFor, Option.getD_some, hrun, hnone, List.isEmpty_nil, if_pos,
    hcomprises.foldlM_add_build h]

/-- Definitions that name their parts by keywords, types without parts and a built-in scalar among them. -/
def keywordEntries : List SchemaEntry :=
  [.type (.enum "enum" []), .directive ⟨"on", [.field], [], true⟩, .type (.scalar "Int"), .roots [(.query, "type")],
    .type (.interface "interface" [] []),
    .type (.object "type" [⟨"on", "[Int!]", [⟨"input", "enum", some "a"⟩]⟩] ["interface"])]

def keywordDescription : SchemaDescription where
  queryType := some "type"
  types := keywordEntries.filterMap SchemaEntry.type?
  directives := keywordEntries.filterMap SchemaEntry.directive?

def keywordText : String :=
  "enum enum directive @on repeatable on FIELD scalar Int schema \x7b query: type \x7d interface interface
  type type implements interface \x7b on(input: enum = a): [Int!] \x7d"

theorem wellFormed_keywordDescription : keywordDescription.WellFormed 512 := by
  have hfield : FieldDescription.WellFormed 512 ⟨"on", "[Int!]", [⟨"input", "enum", some "a"⟩]⟩ := by
    refine ⟨by decide, ⟨.list (.nonNull (.named "Int")), .list (.nonNull rfl (.named (by decide))), by decide, rfl⟩,
      List.forall_mem_singleton.2 ⟨by decide, ⟨.named "enum", .named (by decide), by decide, rfl⟩, ?_⟩⟩
    rintro _ ⟨⟩
    exact ⟨.enum "a" .blank, .enum (by decide) (by decide) (by decide) (by decide), by decide, rfl⟩
  refine ⟨by decide, ?_, List.forall_mem_singleton.2 ⟨by decide, List.forall_mem_nil _, List.cons_ne_nil _ _⟩⟩
  simp only [keywordDescription, keywordEntries, List.filterMap_cons, SchemaEntry.type?, List.filterMap_nil,
    List.forall_mem_cons]
  exact ⟨.enum (by decide) (List.forall_mem_nil _), .scalar (by decide),
    .interface (by decide) (List.forall_mem_nil _) (List.forall_mem_nil _),
    .object (by decide) (List.forall_mem_singleton.2 hfield) (by decide), List.forall_mem_nil _⟩

theorem lexemes_keywordText : Token.lexemes keywordText = keywordEntries.flatMap SchemaEntry.lexemes := by
  decide +kernel

theorem ofText_keywordText : Schema.ofText keywordText = keywordDescription.build.mapError .refused ∧
    keywordDescription.build.toOption.map Schema.typeNames =
      some ["Int", "Float", "String", "Boolean", "ID", "enum", "interface", "type"] := by
  have hlength : (Token.lexemes keywordText).length ≤ 1000000 := by
    rw [lexemes_keywordText]
    decide +kernel
  exact ⟨wellFormed_keywordDescription.ofText_eq_build ⟨keywordEntries, ⟨rfl, rfl, rfl⟩, lexemes_keywordText⟩ hlength,
    by decide +kernel⟩

end QueryBatch
