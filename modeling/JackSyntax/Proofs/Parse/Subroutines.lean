/-
The subroutines that are noted while a class is recognized are those that
its tree declares.

As for the calls, the argument is an account of the parts in the sense of
`Builds`: a part leaves notes of the declarations in the row that it adds
(`declared`). Only the body of a declaration leaves such a note, so every
other body keeps the account piece by piece (`declares_of_uses`).

What a part counts is in the account too: the parameters, the variables,
the names. A declaration makes its record of these counts.
-/
import JackSyntax.Proofs.Grammar.Subroutines
import JackSyntax.Proofs.Parse.Acts
import JackSyntax.Proofs.Parse.Soundness

namespace JackSyntax

variable {α β : Type}

namespace Part

-- ========================================================== the account

/-- The part holds no declaration of a subroutine. -/
def isInner : Part → Bool
  | .rule .classDec | .rule .subroutineDec | .many .subroutineDec => false
  | _ => true

/-- Where a part counts what is declared in it, it yields how much that
is. Further parameters are counted as they stand after a first one. -/
def Totals : (part : Part) → Forest → part.Value → Prop
  | .rule .parameterList, inside, count => count = inside.parameterCount
  | .many .parameter, inside, count => ∀ type name,
    (Forest.leaf type (.leaf name inside)).parameterCount = count + 1
  | .rule .subroutineBody, inside, count => count = inside.localCount
  | .many .varDec, inside, count => count = inside.localCount
  | .rule .varDec, inside, count => count = inside.nameCount
  | .many .name, inside, count => count = inside.identifierCount
  | _, _, _ => True

/-- What is called from a part without declarations has none. -/
theorem isInner_of_mem_callees (part : Part) :
    ∀ callee ∈ part.callees, part.isInner → callee.isInner := by
  cases part with
  | rule named => cases named <;> decide
  | many repeated => cases repeated <;> decide

/-- Only a declaration leaves notes of subroutines. -/
theorem subroutine?_eq_none_of_leaves {part : Part} {left : Note}
    (hpart : part ≠ .rule .subroutineDec) (h : part.Leaves left) :
    left.subroutine? = none := by
  cases left with
  | header name line => rfl
  | call made => rfl
  | subroutine declared =>
    cases part with
    | many repeated => cases h
    | rule named =>
      cases named with
      | subroutineDec => exact absurd rfl hpart
      | _ => cases h

end Part

namespace Recognizer

/-- The account by which a part notes the subroutines that are declared in
the row that it adds. -/
def declared : Account := fun owner part forest notes value =>
  ∃ inside, forest = part.wrap inside
    ∧ forest.Declares (part.scope owner value) notes
    ∧ (part.isInner → forest.entries.count (.enter .subroutineDec) = 0)
    ∧ part.Totals inside value

-- ======================================================= piece by piece

/-- Acts that note no subroutine: parts of the same class, without
declarations if none are allowed, and notes of other things. -/
def SparesSubroutines (owner : String) (inner : Bool) : Act → Prop
  | .call name part =>
    name = owner ∧ part ≠ .rule .classDec ∧ (inner → part.isInner)
  | .refuse _ => True
  | .note left => left.subroutine? = none

/-- A recognizer all of whose acts spare the subroutines notes those of
its parts. -/
theorem declares_of_uses {owner : String} {inner : Bool}
    {recognizer : Recognizer α} {forest : Forest} {notes : List Note}
    {result : α} (h : recognizer.Builds declared forest notes result)
    (huses : recognizer.Uses (SparesSubroutines owner inner)) :
    forest.Declares owner notes
      ∧ (inner → forest.entries.count (.enter .subroutineDec) = 0) := by
  refine Builds.of_uses (fun forest notes => forest.Declares owner notes
      ∧ (inner → forest.entries.count (.enter .subroutineDec) = 0))
    ⟨.nil, fun _ => rfl⟩ ?_ ?_ ?_ h huses
  · rintro token rest notes ⟨hrest, hnone⟩
    refine ⟨hrest.leaf, fun hinner => ?_⟩
    rw [Forest.entries, List.count_cons, hnone hinner]
    rfl
  · rintro left forest notes hspares ⟨hrest, hnone⟩
    exact ⟨hrest.cons hspares, hnone⟩
  · rintro name part front before value back after ⟨rfl, hclass, hcallee⟩
      ⟨inside, rfl, hfront, hnone, -⟩ ⟨hback, hnone'⟩
    have hscope : part.scope name value = name := by
      unfold Part.scope
      split
      · exact absurd rfl hclass
      · rfl
    rw [hscope] at hfront
    refine ⟨hfront.append hback, fun hinner => ?_⟩
    rw [Forest.entries_append, List.count_append, hnone (hcallee hinner),
      hnone' hinner]

/-- The body of a part other than a class or a declaration notes what its
parts declare. -/
theorem declares_body {owner : String} {part : Part} {forest : Forest}
    {notes : List Note} {value : part.Value}
    (h : (body owner part).Builds declared forest notes value)
    (hclass : part ≠ .rule .classDec)
    (hpart : part ≠ .rule .subroutineDec) :
    forest.Declares owner notes
      ∧ (part.isInner → forest.entries.count (.enter .subroutineDec) = 0) := by
  refine declares_of_uses h ((uses_body owner part).mono fun act hact => ?_)
  cases act with
  | call name callee =>
    obtain ⟨hcallee, hname⟩ := hact
    refine ⟨hname.resolve_left hclass, ?_, fun hinner => ?_⟩
    · rintro rfl
      exact part.classDec_notMem_callees hcallee
    · exact part.isInner_of_mem_callees callee hcallee hinner
  | refuse reason => trivial
  | note left => exact Part.subroutine?_eq_none_of_leaves hpart hact

-- ============================================================== counts

/-- A part that is called adds its row, with the count that it yields. If
it holds no declaration, none is noted. -/
theorem exists_of_builds_part {owner : String} {callee : Part}
    {next : callee.Value → Recognizer α} {forest : Forest}
    {notes : List Note} {result : α}
    (h : (part owner callee >>= next).Builds declared forest notes result) :
    ∃ inside rest before after value,
      forest = callee.wrap inside ++ rest ∧ notes = before ++ after
        ∧ callee.Totals inside value
        ∧ (callee.isInner → before.filterMap Note.subroutine? = []
          ∧ (callee.wrap inside).entries.count (.enter .subroutineDec) = 0)
        ∧ (next value).Builds declared rest after result := by
  obtain ⟨_, rest, before, after, value, rfl, rfl,
    ⟨inside, rfl, hinside, hnone, htotal⟩, h⟩ := h
  refine ⟨inside, rest, before, after, value, rfl, rfl, htotal,
    fun hinner => ⟨?_, hnone hinner⟩, h⟩
  rw [hinside.subroutines]
  exact List.length_eq_zero_iff.1 (hinside.all.trans (hnone hinner))

theorem totals_parameterList {owner : String} {inside : Forest}
    {notes : List Note} {count : Nat}
    (h : (parameterList owner).Builds declared inside notes count) :
    count = inside.parameterCount := by
  unfold parameterList at h
  obtain ⟨kind, h⟩ := exists_of_builds_look h
  split at h
  · obtain ⟨rfl, -, rfl⟩ := h
    rfl
  · obtain ⟨type, _, rfl, -, h⟩ := exists_of_builds_take h
    obtain ⟨name, _, rfl, -, h⟩ := exists_of_builds_pass h
    obtain ⟨further, _, _, _, more, rfl, -, hmore, -, rfl, -, rfl⟩ :=
      exists_of_builds_part h
    rw [Forest.append_nil, Nat.add_comm]
    exact (hmore type name).symm

/-- The names of a declaration are those in its row. -/
theorem count_of_builds_names {owner : String}
    {next : Nat → Recognizer α} {forest : Forest} {notes : List Note}
    {result : α}
    (h : (names owner >>= next).Builds declared forest notes result) :
    ∃ count front back after, forest = front ++ back
      ∧ count = front.identifierCount
      ∧ (next count).Builds declared back after result := by
  obtain ⟨_, back, _, after, count, rfl, -, hnames, h⟩ := builds_bind h
  obtain ⟨name, _, rfl, hname, hmore⟩ := exists_of_builds_pass hnames
  obtain ⟨further, _, _, _, more, rfl, -, hfurther, -, rfl, -, rfl⟩ :=
    exists_of_builds_part hmore
  refine ⟨_, _, back, after, rfl, ?_, h⟩
  have hkind : name.kind = .identifier := List.mem_singleton.1 hname
  have hcount : more = further.identifierCount := hfurther
  rw [Forest.append_nil, Forest.identifierCount_leaf, if_pos hkind, hcount,
    Nat.add_comm]
  rfl

theorem totals_varDec {owner : String} {inside : Forest}
    {notes : List Note} {count : Nat}
    (h : (varDec owner).Builds declared inside notes count) :
    count = inside.nameCount := by
  obtain ⟨keyword, _, rfl, -, h⟩ := exists_of_builds_pass h
  obtain ⟨type, _, rfl, -, h⟩ := exists_of_builds_take h
  obtain ⟨_, names, _, _, rfl, rfl, h⟩ := count_of_builds_names h
  obtain ⟨semicolon, _, rfl, hkind, rfl, -, rfl⟩ := exists_of_builds_pass h
  have hother : semicolon.kind ≠ .identifier := by
    rw [List.mem_singleton.1 hkind]
    decide
  rw [Forest.nameCount_leaf, Forest.identifierCount_append,
    Forest.identifierCount_leaf, if_neg hother]
  rfl

theorem totals_subroutineBody {owner : String} {inside : Forest}
    {notes : List Note} {count : Nat}
    (h : (subroutineBody owner).Builds declared inside notes count) :
    count = inside.localCount := by
  obtain ⟨opening, _, rfl, -, h⟩ := exists_of_builds_pass h
  obtain ⟨varDecs, _, _, _, locals, rfl, -, hlocals, -, h⟩ :=
    exists_of_builds_part h
  obtain ⟨statements, _, _, _, _, rfl, -, -, -, h⟩ := exists_of_builds_part h
  obtain ⟨closing, _, rfl, -, rfl, -, rfl⟩ := exists_of_builds_pass h
  have hcount : count = varDecs.localCount := hlocals
  rw [Forest.localCount, Part.wrap, Part.wrap, Forest.localCount_append,
    hcount]
  rfl

/-- The repetitions that count go through their items one at a time. -/
theorem totals_repetition {owner : String} {repeated : Item}
    {inside : Forest} {notes : List Note} {count : Nat}
    (h : (repetition owner repeated).Builds declared inside notes count) :
    (Part.many repeated).Totals inside count := by
  obtain ⟨kind, h⟩ := exists_of_builds_look h
  split at h
  · obtain ⟨one, rest, _, _, first, rfl, -, hone, h⟩ := builds_bind h
    obtain ⟨further, _, _, _, more, rfl, -, hmore, -, rfl, -, rfl⟩ :=
      exists_of_builds_part h
    cases repeated with
    | parameter =>
      obtain ⟨comma, _, rfl, -, hone⟩ := exists_of_builds_pass hone
      obtain ⟨type, _, rfl, -, hone⟩ := exists_of_builds_take hone
      obtain ⟨name, _, rfl, -, rfl, -, rfl⟩ := exists_of_builds_pass hone
      intro before named
      rw [Forest.append_nil]
      show Forest.parameterCount (.leaf type (.leaf name further)) + 1 = _
      rw [hmore type name, Nat.add_comm 1]
    | varDec =>
      obtain ⟨inside, _, _, _, names, rfl, -, hnames, -, rfl, -, rfl⟩ :=
        exists_of_builds_part hone
      have hfurther : more = further.localCount := hmore
      have hcount : first = inside.nameCount := hnames
      show first + more = Forest.localCount _
      rw [Forest.append_nil, Forest.append_nil, Part.wrap, Part.wrap,
        Forest.localCount_append, hcount, hfurther]
      rfl
    | name =>
      obtain ⟨comma, _, rfl, hcomma, hone⟩ := exists_of_builds_pass hone
      obtain ⟨name, _, rfl, hname, rfl, -, rfl⟩ := exists_of_builds_pass hone
      have hfurther : more = further.identifierCount := hmore
      have hcommaKind : comma.kind ≠ .identifier := by
        rw [List.mem_singleton.1 hcomma]
        decide
      show 1 + more = Forest.identifierCount _
      rw [Forest.append_nil, Forest.leaf_append, Forest.leaf_append,
        Forest.identifierCount_leaf, if_neg hcommaKind,
        Forest.identifierCount_leaf, if_pos (List.mem_singleton.1 hname),
        hfurther, Nat.add_comm]
      rfl
    | _ => trivial
  · obtain ⟨rfl, -, rfl⟩ := h
    cases repeated with
    | parameter => exact fun _ _ => rfl
    | _ => trivial

-- ======================================================== declarations

/-- A declaration is noted after all that is inside it, with its counts. -/
theorem declares_subroutineDec {owner : String} {inside : Forest}
    {notes : List Note} {value : Unit}
    (h : (subroutineDec owner).Builds declared inside notes value) :
    (Forest.node .subroutineDec inside .nil).Declares owner notes := by
  obtain ⟨keyword, _, rfl, hkeyword, h⟩ := exists_of_builds_take h
  obtain ⟨returnType, _, rfl, -, h⟩ := exists_of_builds_take h
  obtain ⟨name, _, rfl, -, h⟩ := exists_of_builds_take h
  obtain ⟨opening, _, rfl, -, hlist⟩ := exists_of_builds_pass h
  obtain ⟨parameters, _, before, _, count, rfl, rfl, hcount, hparameters,
    hend⟩ := exists_of_builds_part hlist
  obtain ⟨closing, _, rfl, -, hbody⟩ := exists_of_builds_pass hend
  obtain ⟨inside, _, after, _, locals, rfl, rfl, hlocals, hinside, _, rfl,
    rfl, rfl, -⟩ := exists_of_builds_part hbody
  obtain ⟨hbefore, hnone⟩ := hparameters rfl
  obtain ⟨hafter, hnone'⟩ := hinside rfl
  obtain ⟨kind, hkind⟩ : ∃ kind, SubroutineKind.ofKind? keyword.kind
      = some kind := by
    rw [← Option.isSome_iff_exists, SubroutineKind.ofKind?_isSome]
    exact List.contains_iff_mem.2 hkeyword
  refine @Forest.Declares.declaration _ _ _ ⟨qualify owner name.value, kind,
    returnType.value, count, locals, name.position.line⟩ ?_ ?_ ?_
  · have hparameters : count = parameters.parameterCount := hcount
    have hinside : locals = inside.localCount := hlocals
    rw [hparameters, hinside]
    show (SubroutineKind.ofKind? keyword.kind).map _ = _
    rw [hkind]
    rfl
  · rw [List.filterMap_append, List.filterMap_append, hbefore, hafter, hkind]
    rfl
  · simp [Forest.entries, Forest.entries_append, hnone, hnone']

-- ========================================================== all bodies

/-- Inside the header of a class the subroutines are noted under its
name. -/
theorem declares_classDec {inside : Forest} {notes : List Note}
    {name : String} (h : classDec.Builds declared inside notes name) :
    inside.Declares name notes := by
  obtain ⟨keyword, _, rfl, -, hname⟩ := exists_of_builds_pass h
  obtain ⟨named, _, rfl, -, _, rfl, hrest⟩ := exists_of_builds_take hname
  change Builds declared ((do
    pass .openCurly
    let _ ← many named.value .classVarDec
    let _ ← many named.value .subroutineDec
    pass .closeCurly) >>= fun _ => pure named.value) _ _ _ at hrest
  obtain ⟨front, _, before, _, _, rfl, rfl, hfront, rfl, rfl, rfl⟩ :=
    builds_bind hrest
  have huses : (do
      pass .openCurly
      let _ ← many named.value .classVarDec
      let _ ← many named.value .subroutineDec
      pass .closeCurly : Recognizer Unit).Uses
        (SparesSubroutines named.value false) :=
    .bind (.pass _) fun _ => .bind (.many ⟨rfl, by decide, nofun⟩) fun _ =>
      .bind (.many ⟨rfl, by decide, nofun⟩) fun _ => .pass _
  rw [Forest.append_nil, List.append_nil]
  exact ((declares_of_uses hfront huses).1.cons rfl).leaf.leaf

/-- A rule notes the subroutines in its tree. -/
theorem declares_rule {owner : String} {named : Rule} {inside : Forest}
    {notes : List Note} {value : (Part.rule named).Value}
    (h : (body owner (.rule named)).Builds declared inside notes value) :
    (Forest.node named inside .nil).Declares
        ((Part.rule named).scope owner value) notes
      ∧ ((Part.rule named).isInner →
        (Forest.node named inside .nil).entries.count
          (.enter .subroutineDec) = 0) := by
  by_cases hdeclaration : named = .subroutineDec
  · subst hdeclaration
    exact ⟨declares_subroutineDec h, nofun⟩
  by_cases hclass : named = .classDec
  · subst hclass
    exact ⟨(declares_classDec h).node hdeclaration, nofun⟩
  have hscope : (Part.rule named).scope owner value = owner := by
    cases named with
    | classDec => exact absurd rfl hclass
    | _ => rfl
  obtain ⟨hinside, hnone⟩ := declares_body h
    (fun heq => hclass (Part.rule.inj heq))
    (fun heq => hdeclaration (Part.rule.inj heq))
  refine ⟨?_, fun hinner => ?_⟩
  · rw [hscope]
    exact hinside.node hdeclaration
  · simp [Forest.entries, hnone hinner, hdeclaration]

theorem totals_rule {owner : String} {named : Rule} {inside : Forest}
    {notes : List Note} {value : (Part.rule named).Value}
    (h : (body owner (.rule named)).Builds declared inside notes value) :
    (Part.rule named).Totals inside value := by
  cases named with
  | parameterList => exact totals_parameterList h
  | subroutineBody => exact totals_subroutineBody h
  | varDec => exact totals_varDec h
  | _ => trivial

/-- Every body keeps the account. -/
theorem declared_body (owner : String) (part : Part) (inside : Forest)
    (notes : List Note) (value : part.Value)
    (h : (body owner part).Builds declared inside notes value) :
    declared owner part (part.wrap inside) notes value := by
  cases part with
  | rule named =>
    obtain ⟨htree, hnone⟩ := declares_rule h
    exact ⟨inside, rfl, htree, hnone, totals_rule h⟩
  | many repeated =>
    obtain ⟨hinside, hnone⟩ := declares_body h nofun nofun
    exact ⟨inside, rfl, hinside, hnone, totals_repetition h⟩

end Recognizer

-- ======================================================= whole classes

/-- A run over a whole class notes the subroutines that are declared in
the forest that it goes through. -/
theorem declares_class {parser after : Parser} {tokens : List Token}
    {name : String} (h : (Recognizer.rule "" .classDec).Runs parser tokens
      (.done name after)) :
    ∃ forest notes, parser.Passes forest notes after
      ∧ forest.Declares name notes := by
  cases h with
  | through hopen hbody hdone =>
    cases hdone
    obtain ⟨inside, notes, hbuilds, -, hpasses⟩ :=
      hbody.passes Recognizer.declared_body rfl
    exact ⟨.node .classDec inside .nil, notes, hpasses.node hopen,
      (Recognizer.declares_rule hbuilds).1⟩

/-- The subroutines of a parsed class are those that its derivation
declares, in order, and there is one for each declaration in the trace. -/
theorem exists_subroutines_of_parse {source : TokenSource} {limit : Nat}
    {parsed : ParsedClass} (h : parse source limit = .ok parsed) :
    ∃ forest, IsClass forest ∧ parsed.trace.toList = forest.entries
      ∧ parsed.subroutines = forest.subroutines parsed.name
      ∧ parsed.subroutines.length
          = parsed.trace.toList.count (.enter .subroutineDec) := by
  obtain ⟨tokens, after, hruns, -, hparsed⟩ := exists_runs_of_parse h
  obtain ⟨forest, notes, hclass, -, hpasses, -⟩ := passes_class hruns
  obtain ⟨other, found, hother, hdeclares⟩ := declares_class hruns
  obtain rfl : other = forest := hother.forest_unique hpasses
  have htrace : parsed.trace.toList = other.entries := by
    rw [hparsed, hpasses.trace]
    rfl
  have hsubroutines : parsed.subroutines = other.subroutines parsed.name := by
    rw [← hdeclares.subroutines, hparsed, Parser.subroutines, hother.notes]
    rfl
  refine ⟨other, hclass, htrace, hsubroutines, ?_⟩
  rw [hsubroutines, htrace, hdeclares.all]

/-- A constructor with two parameters and three variables in two
declarations comes before a method without any. -/
theorem exists_subroutines_of_parse_constructor :
    ∃ source parsed, parse source 3 = .ok parsed
      ∧ parsed.subroutines = [⟨"A.new", .constructor, "A", 2, 3, 1⟩,
        ⟨"A.f", .method, "void", 0, 0, 1⟩]
      ∧ ∃ forest, IsClass forest ∧ parsed.trace.toList = forest.entries
        ∧ parsed.subroutines = forest.subroutines parsed.name
        ∧ parsed.subroutines.length
            = parsed.trace.toList.count (.enter .subroutineDec) := by
  let words : List (Kind × String) := [(.kwClass, "class"),
    (.identifier, "A"), (.openCurly, "\x7b"),
    (.kwConstructor, "constructor"), (.identifier, "A"),
    (.identifier, "new"), (.openParen, "("), (.kwInt, "int"),
    (.identifier, "x"), (.comma, ","), (.identifier, "B"),
    (.identifier, "y"), (.closeParen, ")"), (.openCurly, "\x7b"),
    (.kwVar, "var"), (.identifier, "B"), (.identifier, "p"), (.comma, ","),
    (.identifier, "q"), (.semicolon, ";"), (.kwVar, "var"),
    (.kwChar, "char"), (.identifier, "r"), (.semicolon, ";"),
    (.kwReturn, "return"), (.kwThis, "this"), (.semicolon, ";"),
    (.closeCurly, "\x7d"), (.kwMethod, "method"), (.kwVoid, "void"),
    (.identifier, "f"), (.openParen, "("), (.closeParen, ")"),
    (.openCurly, "\x7b"), (.closeCurly, "\x7d"), (.closeCurly, "\x7d")]
  let source : TokenSource := .ofTokens
    (words.map fun (kind, value) => ⟨kind, value, .start⟩)
  have hsubroutines : (match parse source 3 with
      | .ok parsed => parsed.subroutines
          == [⟨"A.new", .constructor, "A", 2, 3, 1⟩,
            ⟨"A.f", .method, "void", 0, 0, 1⟩]
      | .error _ => false) = true := by decide +kernel
  cases h : parse source 3 with
  | ok parsed =>
    rw [h] at hsubroutines
    exact ⟨source, parsed, h, eq_of_beq hsubroutines,
      exists_subroutines_of_parse h⟩
  | error error =>
    rw [h] at hsubroutines
    cases hsubroutines

end JackSyntax
