/-
The calls that are noted while a class is recognized are those of its
tree.

The argument is an account of the parts in the sense of `Builds`: a part
leaves notes of the calls in the row that it adds (`recorded`). Every body
keeps the account. Most of them do so piece by piece (`KeepsCalls`),
because no call lies across two of their pieces, which their acts show;
the rules in which a call stands by itself are seen to one by one.
-/
import JackSyntax.Proofs.Grammar.Calls
import JackSyntax.Proofs.Parse.Acts
import JackSyntax.Proofs.Parse.Soundness

namespace JackSyntax

variable {α β : Type}

-- ========================================================== the account

/-- Where a part counts expressions, it yields how many it has. -/
def Part.Tallies : (part : Part) → Forest → part.Value → Prop
  | .rule .expressionList, inside, count => count = inside.count .expression
  | .many .expression, inside, count => count = inside.count .expression
  | _, _, _ => True

namespace Recognizer

/-- The account by which a part notes the calls in the row that it adds. A
repetition has no rule around it, so no call may lie across its ends. -/
def recorded : Account := fun owner part forest notes value =>
  ∃ inside, forest = part.wrap inside
    ∧ inside.Recorded (part.scope owner value) notes
    ∧ part.Tallies inside value
    ∧ ((∃ item, part = .many item) → inside.IsTight)

-- ======================================================= piece by piece

/-- What the recognizer goes through has its calls noted, and none of them
lies across an end of it. -/
def KeepsCalls (owner : String) (recognizer : Recognizer α) : Prop :=
  ∀ forest notes value, recognizer.Builds recorded forest notes value →
    forest.Recorded owner notes ∧ forest.IsTight

/-- Acts that add no call and no piece of one: parts of the same class
that are not the arguments of a call, and notes of other things. -/
def SparesCalls (owner : String) : Act → Prop
  | .call name part =>
    name = owner ∧ part ≠ .rule .classDec ∧ part ≠ .rule .expressionList
  | .refuse _ => True
  | .note left => left.call? = none

/-- A part other than a list of expressions stands alone. -/
theorem recorded_part {owner : String} {part : Part} {forest : Forest}
    {notes : List Note} {value : part.Value}
    (h : recorded owner part forest notes value)
    (hclass : part ≠ .rule .classDec)
    (hlist : part ≠ .rule .expressionList) :
    forest.Recorded owner notes ∧ forest.IsTight := by
  obtain ⟨inside, rfl, hinside, -, htight⟩ := h
  cases part with
  | many item => exact ⟨hinside, htight ⟨item, rfl⟩⟩
  | rule named =>
    have hscope : (Part.rule named).scope owner value = owner := by
      cases named with
      | classDec => exact absurd rfl hclass
      | _ => rfl
    have hother : named ≠ .expressionList := fun heq => hlist (heq ▸ rfl)
    have hplain : (named == .expressionList) = false :=
      beq_eq_false_iff_ne.2 hother
    rw [hscope] at hinside
    exact ⟨hinside.node hother, hplain, hplain⟩

/-- A recognizer all of whose acts spare the calls keeps them. -/
theorem keepsCalls_of_uses {owner : String} {recognizer : Recognizer α}
    (huses : recognizer.Uses (SparesCalls owner)) :
    KeepsCalls owner recognizer := by
  have hleaf : ∀ token, (Forest.leaf token .nil).IsTight :=
    fun _ => ⟨rfl, rfl⟩
  intro forest notes result hbuilds
  refine Builds.of_uses
    (fun forest notes => forest.Recorded owner notes ∧ forest.IsTight)
    ⟨.nil, rfl, rfl⟩ ?_ ?_ ?_ hbuilds huses
  · rintro token rest notes ⟨hrest, htight⟩
    exact ⟨(Forest.Recorded.leaf token).append hrest rfl htight.front,
      (hleaf token).append htight⟩
  · rintro left forest notes hspares ⟨hrest, htight⟩
    exact ⟨hrest.cons hspares, htight⟩
  · rintro _ part front before value back after ⟨rfl, hclass, hlist⟩ hpart
      ⟨hback, htight'⟩
    obtain ⟨hfront, htight⟩ := recorded_part hpart hclass hlist
    exact ⟨hfront.append hback htight.back htight'.front,
      htight.append htight'⟩

/-- No call lies across two pieces of a part in which no call stands by
itself. -/
theorem keepsCalls_body {owner : String} {part : Part}
    (hclass : part ≠ .rule .classDec) (hdo : part ≠ .rule .doStatement)
    (hterm : part ≠ .rule .term) : KeepsCalls owner (body owner part) := by
  refine keepsCalls_of_uses ((uses_body owner part).mono fun act hact => ?_)
  cases act with
  | call name callee =>
    obtain ⟨hcallee, hname⟩ := hact
    refine ⟨hname.resolve_left hclass, ?_, ?_⟩
    · rintro rfl
      exact part.classDec_notMem_callees hcallee
    · rintro rfl
      exact (Part.eq_of_expressionList_mem_callees hcallee).elim hdo hterm
  | refuse reason => trivial
  | note left => exact Part.call?_eq_none_of_leaves hdo hterm hact

-- =============================================================== calls

/-- The arguments of a call, and the note that is left after them. -/
theorem exists_of_builds_arguments {owner target : String} {bare : Bool}
    {line : Nat} {forest : Forest} {notes : List Note} {call : Call}
    (h : (do
      let arguments ← rule owner .expressionList
      pass .closeParen
      let call : Call := ⟨target, arguments, bare, line⟩
      record (.call call)
      return call : Recognizer Call).Builds recorded forest notes call) :
    ∃ arguments closing before,
      forest = .node .expressionList arguments (.leaf closing .nil)
        ∧ arguments.Recorded owner before ∧ closing.kind = .closeParen
        ∧ notes = before ++ [.call call]
        ∧ call = ⟨target, arguments.count .expression, bare, line⟩ := by
  obtain ⟨_, _, before, _, _, rfl, rfl, ⟨arguments, rfl, harguments, rfl, -⟩,
    closing, _, rfl, hclosing, _, rfl, rfl, rfl, rfl⟩ := h
  exact ⟨arguments, closing, before, rfl, harguments,
    List.mem_singleton.1 hclosing, rfl, rfl⟩

/-- After its first name a call is noted as the last one. -/
theorem exists_of_builds_subroutineCall {owner : String} {first : Token}
    {forest : Forest} {notes : List Note} {call : Call}
    (h : (subroutineCall owner first).Builds recorded forest notes call) :
    ∃ arguments closing before,
      Forest.IsCallRest owner first arguments closing forest call
        ∧ arguments.Recorded owner before ∧ closing.kind = .closeParen
        ∧ notes = before ++ [.call call] := by
  obtain ⟨separator, rest, rfl, hkind, h⟩ := exists_of_builds_take h
  by_cases hbare : separator.kind = .openParen
  · simp only [hbare, if_true] at h
    obtain ⟨arguments, closing, before, rfl, harguments, hclosing, rfl, rfl⟩ :=
      exists_of_builds_arguments h
    exact ⟨arguments, closing, before, .bare separator, harguments,
      hclosing, rfl⟩
  · have hdot : separator.kind = .dot := by
      simpa [hbare] using hkind
    simp only [hbare, if_false] at h
    obtain ⟨second, _, rfl, -, h⟩ := exists_of_builds_take h
    obtain ⟨opening, _, rfl, -, h⟩ := exists_of_builds_pass h
    obtain ⟨arguments, closing, before, rfl, harguments, hclosing, rfl, rfl⟩ :=
      exists_of_builds_arguments h
    exact ⟨arguments, closing, before, .dotted separator second opening hdot,
      harguments, hclosing, rfl⟩

/-- The call of a statement, between its keyword and its semicolon. -/
theorem recorded_doStatement {owner : String} {forest : Forest}
    {notes : List Note} {value : Unit}
    (h : (doStatement owner).Builds recorded forest notes value) :
    forest.Recorded owner notes := by
  obtain ⟨keyword, _, rfl, -, h⟩ := exists_of_builds_pass h
  obtain ⟨first, rest, rfl, -, h⟩ := exists_of_builds_take h
  obtain ⟨front, back, before, after, call, rfl, rfl, hcall, hend⟩ :=
    builds_bind h
  obtain ⟨arguments, closing, before, hrest, harguments, hclosing, rfl⟩ :=
    exists_of_builds_subroutineCall hcall
  obtain ⟨hback, htight⟩ := keepsCalls_of_uses (.pass _) _ _ _ hend
  have hfront := hrest.recorded_leaf harguments hclosing keyword
  exact hfront.append hback hrest.endsInList_eq htight.front

/-- A term that starts with a name is a call or has none of its own. -/
theorem recorded_namedTerm {owner : String} {forest : Forest}
    {notes : List Note} {value : Unit}
    (h : (namedTerm owner).Builds recorded forest notes value) :
    forest.Recorded owner notes := by
  unfold namedTerm at h
  obtain ⟨first, rest, rfl, -, h⟩ := exists_of_builds_take h
  obtain ⟨kind, h⟩ := exists_of_builds_look h
  have hcall : (do let _ ← subroutineCall owner first).Builds recorded rest
      notes value → (Forest.leaf first rest).Recorded owner notes := by
    intro h
    obtain ⟨_, _, _, _, _, rfl, rfl, hcall, rfl, rfl, -⟩ := builds_bind h
    obtain ⟨arguments, closing, before, hrest, harguments, hclosing, rfl⟩ :=
      exists_of_builds_subroutineCall hcall
    rw [Forest.append_nil, List.append_nil]
    exact hrest.recorded harguments hclosing
  have hindex : (optionalIndex owner).Builds recorded rest notes value →
      (Forest.leaf first rest).Recorded owner notes := by
    intro h
    obtain ⟨hrest, htight⟩ := keepsCalls_of_uses (uses_optionalIndex owner
      ⟨rfl, by decide, by decide⟩) _ _ _ h
    exact (Forest.Recorded.leaf first).append hrest rfl htight.front
  split at h
  · exact hcall h
  · exact hcall h
  · exact hindex h

theorem recorded_term {owner : String} {forest : Forest}
    {notes : List Note} {value : Unit}
    (h : (term owner).Builds recorded forest notes value) :
    forest.Recorded owner notes := by
  unfold term at h
  obtain ⟨kind, h⟩ := exists_of_builds_look h
  have hother : ∀ {recognizer : Recognizer Unit},
      recognizer.Uses (SparesCalls owner) →
      recognizer.Builds recorded forest notes value →
      forest.Recorded owner notes := fun huses hbuilds =>
    (keepsCalls_of_uses huses _ _ _ hbuilds).1
  have hunary : (do
      let _ ← take Kind.unaryOperators
      rule owner .term).Uses (SparesCalls owner) :=
    .bind (.take _) fun _ => .rule ⟨rfl, by decide, by decide⟩
  split at h
  · exact hother (.pass _) h
  · exact hother (.pass _) h
  · exact hother (.bind (.take _) fun _ => .pure _) h
  · exact hother (.bind (.take _) fun _ => .pure _) h
  · exact hother (.bind (.take _) fun _ => .pure _) h
  · exact hother (.bind (.take _) fun _ => .pure _) h
  · exact recorded_namedTerm h
  · exact hother (uses_condition owner ⟨rfl, by decide, by decide⟩) h
  · exact hother hunary h
  · exact hother hunary h
  · cases h

-- ============================================================== counts

/-- An expression counts for one. -/
theorem count_of_builds_expression {owner : String}
    {next : Unit → Recognizer α} {forest : Forest} {notes : List Note}
    {result : α}
    (h : (rule owner .expression >>= next).Builds recorded forest notes
      result) :
    ∃ back after, (next ()).Builds recorded back after result
      ∧ forest.count .expression = 1 + back.count .expression := by
  obtain ⟨_, back, _, after, _, rfl, rfl, ⟨inside, rfl, -⟩, h⟩ := h
  refine ⟨back, after, h, ?_⟩
  rw [Forest.count_append]
  rfl

/-- Further expressions count for what their repetition yields. -/
theorem count_of_builds_many {owner : String} {next : Nat → Recognizer α}
    {forest : Forest} {notes : List Note} {result : α}
    (h : (many owner .expression >>= next).Builds recorded forest notes
      result) :
    ∃ more back after, (next more).Builds recorded back after result
      ∧ forest.count .expression = more + back.count .expression := by
  obtain ⟨front, back, _, after, more, rfl, rfl, ⟨_, rfl, -, hmore, -⟩, h⟩ :=
    h
  refine ⟨more, back, after, h, ?_⟩
  have hcount : more = front.count .expression := hmore
  rw [Forest.count_append, hcount]

theorem tallies_expressionList {owner : String} {inside : Forest}
    {notes : List Note} {count : Nat}
    (h : (expressionList owner).Builds recorded inside notes count) :
    count = inside.count .expression := by
  unfold expressionList at h
  obtain ⟨kind, h⟩ := exists_of_builds_look h
  split at h
  · obtain ⟨rfl, -, rfl⟩ := h
    rfl
  · obtain ⟨_, _, h, hone⟩ := count_of_builds_expression h
    obtain ⟨more, _, _, ⟨rfl, -, rfl⟩, hmore⟩ := count_of_builds_many h
    rw [hone, hmore]
    rfl

theorem tallies_repetition {owner : String} {inside : Forest}
    {notes : List Note} {count : Nat}
    (h : (repetition owner .expression).Builds recorded inside notes count) :
    count = inside.count .expression := by
  obtain ⟨kind, h⟩ := h
  change Builds recorded (if Item.expression.heads.contains kind then do
    pass .comma
    rule owner .expression
    let more ← many owner .expression
    return 1 + more
    else return 0) inside notes count at h
  split at h
  · obtain ⟨comma, _, rfl, -, h⟩ := exists_of_builds_pass h
    obtain ⟨_, _, h, hone⟩ := count_of_builds_expression h
    obtain ⟨more, _, _, ⟨rfl, -, rfl⟩, hmore⟩ := count_of_builds_many h
    rw [Forest.count, hone, hmore]
    rfl
  · obtain ⟨rfl, -, rfl⟩ := h
    rfl

-- ========================================================== all bodies

/-- Inside the header of a class the calls are noted under its name. -/
theorem recorded_classDec {inside : Forest} {notes : List Note}
    {name : String} (h : classDec.Builds recorded inside notes name) :
    inside.Recorded name notes := by
  obtain ⟨keyword, _, rfl, -, hname⟩ := exists_of_builds_pass h
  obtain ⟨named, _, rfl, -, _, rfl, hrest⟩ := exists_of_builds_take hname
  change Builds recorded ((do
    pass .openCurly
    let _ ← many named.value .classVarDec
    let _ ← many named.value .subroutineDec
    pass .closeCurly) >>= fun _ => pure named.value) _ _ _ at hrest
  obtain ⟨front, _, before, _, _, rfl, rfl, hfront, rfl, rfl, rfl⟩ :=
    builds_bind hrest
  have hkeeps : KeepsCalls named.value (do
      pass .openCurly
      let _ ← many named.value .classVarDec
      let _ ← many named.value .subroutineDec
      pass .closeCurly) :=
    keepsCalls_of_uses <| .bind (.pass _) fun _ =>
      .bind (.many ⟨rfl, by decide, by decide⟩) fun _ =>
      .bind (.many ⟨rfl, by decide, by decide⟩) fun _ => .pass _
  obtain ⟨hrest, htight⟩ := hkeeps _ _ _ hfront
  have hheader : (Forest.leaf keyword (.leaf named .nil)).Recorded
      named.value [.header named.value named.position.line] :=
    ((Forest.Recorded.leaf keyword).append (.leaf named) rfl rfl).cons rfl
  rw [Forest.append_nil, List.append_nil]
  exact hheader.append hrest rfl htight.front

/-- Inside every rule the calls are noted. -/
theorem recorded_rule {owner : String} {named : Rule} {inside : Forest}
    {notes : List Note} {value : (Part.rule named).Value}
    (h : (body owner (.rule named)).Builds recorded inside notes value) :
    inside.Recorded ((Part.rule named).scope owner value) notes := by
  cases named with
  | classDec => exact recorded_classDec h
  | doStatement => exact recorded_doStatement h
  | term => exact recorded_term h
  | _ => refine (keepsCalls_body ?_ ?_ ?_ _ _ _ h).1 <;> nofun

/-- Every body keeps the account. -/
theorem recorded_body (owner : String) (part : Part) (inside : Forest)
    (notes : List Note) (value : part.Value)
    (h : (body owner part).Builds recorded inside notes value) :
    recorded owner part (part.wrap inside) notes value := by
  cases part with
  | rule named =>
    refine ⟨inside, rfl, recorded_rule h, ?_, fun ⟨_, hmany⟩ => nomatch hmany⟩
    cases named with
    | expressionList => exact tallies_expressionList h
    | _ => trivial
  | many repeated =>
    have hkeeps : KeepsCalls owner (body owner (.many repeated)) :=
      keepsCalls_body nofun nofun nofun
    obtain ⟨hinside, htight⟩ := hkeeps _ _ _ h
    refine ⟨inside, rfl, hinside, ?_, fun _ => htight⟩
    cases repeated with
    | expression => exact tallies_repetition h
    | _ => trivial

end Recognizer

-- ======================================================= whole classes

/-- A run over a whole class notes the calls of the forest that it goes
through. -/
theorem records_class {parser after : Parser} {tokens : List Token}
    {name : String} (h : (Recognizer.rule "" .classDec).Runs parser tokens
      (.done name after)) :
    ∃ forest notes, parser.Passes forest notes after
      ∧ forest.Recorded name notes := by
  cases h with
  | through hopen hbody hdone =>
    cases hdone
    obtain ⟨inside, notes, hbuilds, -, hpasses⟩ :=
      hbody.passes Recognizer.recorded_body rfl
    exact ⟨.node .classDec inside .nil, notes, hpasses.node hopen,
      (Recognizer.recorded_classDec hbuilds).node (by decide)⟩

/-- The calls of a parsed class are those of its derivation, in the order
in which they are closed, and there is one for each list of arguments in
the trace. -/
theorem exists_calls_of_parse {source : TokenSource} {limit : Nat}
    {parsed : ParsedClass} (h : parse source limit = .ok parsed) :
    ∃ forest, IsClass forest ∧ parsed.trace.toList = forest.entries
      ∧ parsed.calls = (forest.closedCalls parsed.name).map Prod.snd
      ∧ ((forest.closedCalls parsed.name).map Prod.fst).Sublist source.tokens
      ∧ (∀ closed ∈ forest.closedCalls parsed.name,
          closed.1.kind = .closeParen)
      ∧ parsed.calls.length
          = parsed.trace.toList.count (.enter .expressionList) := by
  obtain ⟨tokens, outcome, hruns, hresult⟩ := exists_runs_parse source limit
  obtain ⟨after, rfl, heof, hparsed⟩ :=
    Outcome.eq_of_parsed (hresult.symm.trans h)
  obtain ⟨forest, notes, hclass, -, hpasses, -⟩ := passes_class hruns
  obtain ⟨other, found, hother, hrecorded⟩ := records_class hruns
  obtain rfl : other = forest := hother.forest_unique hpasses
  have htrace : parsed.trace.toList = other.entries := by
    rw [hparsed, hpasses.trace]
    rfl
  have hcalls : parsed.calls = other.calls parsed.name := by
    rw [← hrecorded.calls, hparsed, Parser.calls, hother.notes]
    rfl
  refine ⟨other, hclass, htrace, hcalls, ?_, hrecorded.closed, ?_⟩
  · rw [← hpasses.leaves_eq_tokens
      (fun token htoken => (hclass.isPlain rfl token htoken).1) heof]
    exact other.closers_sublist_leaves parsed.name
  · rw [hcalls, htrace, ← hrecorded.lists, Forest.calls, List.length_map]

/-- Of two calls, one in the arguments of the other, the inner one comes
first. -/
theorem exists_calls_of_parse_nested :
    ∃ source parsed, parse source 9 = .ok parsed
      ∧ parsed.calls = [⟨"A.h", 2, true, 1⟩, ⟨"b.g", 1, false, 1⟩]
      ∧ ∃ forest, IsClass forest ∧ parsed.trace.toList = forest.entries
        ∧ parsed.calls = (forest.closedCalls parsed.name).map Prod.snd
        ∧ ((forest.closedCalls parsed.name).map Prod.fst).Sublist
            source.tokens
        ∧ (∀ closed ∈ forest.closedCalls parsed.name,
            closed.1.kind = .closeParen)
        ∧ parsed.calls.length
            = parsed.trace.toList.count (.enter .expressionList) := by
  let words : List (Kind × String) := [(.kwClass, "class"),
    (.identifier, "A"), (.openCurly, "\x7b"), (.kwMethod, "method"),
    (.kwVoid, "void"), (.identifier, "f"), (.openParen, "("),
    (.closeParen, ")"), (.openCurly, "\x7b"), (.kwDo, "do"),
    (.identifier, "b"), (.dot, "."), (.identifier, "g"), (.openParen, "("),
    (.identifier, "h"), (.openParen, "("), (.number, "1"), (.comma, ","),
    (.number, "2"), (.closeParen, ")"), (.closeParen, ")"),
    (.semicolon, ";"), (.closeCurly, "\x7d"), (.closeCurly, "\x7d")]
  let source : TokenSource := .ofTokens
    (words.map fun (kind, value) => ⟨kind, value, .start⟩)
  have hcalls : (match parse source 9 with
      | .ok parsed => parsed.calls
          == [⟨"A.h", 2, true, 1⟩, ⟨"b.g", 1, false, 1⟩]
      | .error _ => false) = true := by decide +kernel
  cases h : parse source 9 with
  | ok parsed =>
    rw [h] at hcalls
    exact ⟨source, parsed, h, eq_of_beq hcalls, exists_calls_of_parse h⟩
  | error error =>
    rw [h] at hcalls
    cases hcalls

end JackSyntax
