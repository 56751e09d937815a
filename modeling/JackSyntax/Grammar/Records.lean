/-
The records of a class, read off its tree: which subroutines it declares
and which calls it makes. A recognizer collects the same records while
it reads; here they are found afterwards, by looking at the shape of the
tree alone.
-/
import JackSyntax.Grammar.Forest
import JackSyntax.Record

namespace JackSyntax.Forest

-- ============================================================ calls

/-- The calls in a forest, for a class of the given name, each with the
parenthesis that closes it. The calls among the arguments of a call come
before it, which is the order of the closing parentheses. -/
def closedCalls (owner : String) : Forest → List (Token × Call)
  | .nil => []
  | .leaf receiver (.leaf dot (.leaf name (.leaf opening
      (.node .expressionList arguments (.leaf closing rest))))) =>
    if dot.kind = .dot then
      closedCalls owner arguments
        ++ (closing, ⟨qualify receiver.value name.value,
            arguments.count .expression, false, receiver.position.line⟩)
        :: closedCalls owner rest
    else
      closedCalls owner (.leaf dot (.leaf name (.leaf opening
        (.node .expressionList arguments (.leaf closing rest)))))
  | .leaf name (.leaf _ (.node .expressionList arguments
      (.leaf closing rest))) =>
    closedCalls owner arguments
      ++ (closing, ⟨qualify owner name.value, arguments.count .expression,
          true, name.position.line⟩)
      :: closedCalls owner rest
  | .leaf _ rest => closedCalls owner rest
  | .node _ inside rest => closedCalls owner inside ++ closedCalls owner rest

/-- The calls in a forest. -/
def calls (owner : String) (forest : Forest) : List Call :=
  (closedCalls owner forest).map Prod.snd

-- ======================================================= subroutines

/-- How many names a list of parameters has: one for each pair of a type
and a name. -/
def parameterCount : Forest → Nat
  | .leaf _ (.leaf _ .nil) => 1
  | .leaf _ (.leaf _ (.leaf _ rest)) => parameterCount rest + 1
  | _ => 0

/-- How many names a declaration of variables has: the identifiers after
its keyword and its type. -/
def nameCount : Forest → Nat
  | .leaf _ (.leaf _ names) => names.leaves.countP (·.kind == .identifier)
  | _ => 0

/-- How many variables the body of a subroutine declares. -/
def localCount : Forest → Nat
  | .node .varDec inside rest => nameCount inside + localCount rest
  | .node _ _ rest => localCount rest
  | .leaf _ rest => localCount rest
  | .nil => 0

/-- The record of a subroutine, from the trees of its declaration. -/
def subroutine? (owner : String) : Forest → Option Subroutine
  | .leaf keyword (.leaf returnType (.leaf name (.leaf _
      (.node .parameterList parameters (.leaf _
        (.node .subroutineBody body .nil)))))) =>
    (SubroutineKind.ofKind? keyword.kind).map fun kind =>
      { name := qualify owner name.value
        kind := kind
        returnType := returnType.value
        parameters := parameterCount parameters
        locals := localCount body
        line := name.position.line }
  | _ => none

/-- The subroutines declared in a forest, in order. -/
def subroutines (owner : String) : Forest → List Subroutine
  | .nil => []
  | .leaf _ rest => subroutines owner rest
  | .node .subroutineDec inside rest =>
    (subroutine? owner inside).toList ++ subroutines owner rest
  | .node _ inside rest =>
    subroutines owner inside ++ subroutines owner rest

/-- The name of the class that a tree declares. -/
def className? : Forest → Option String
  | .node .classDec (.leaf _ (.leaf name _)) .nil => some name.value
  | _ => none

end JackSyntax.Forest
