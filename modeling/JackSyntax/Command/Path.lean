/-
Paths, as text: names with slashes between them. Nothing is looked up
here; these are the rules by which the names of outputs are made from
the names of sources, and they keep the text of a path as it was given
wherever they can.
-/
import JackSyntax.Text.Lines

namespace JackSyntax.Command.Path

/-- The names between the slashes. A doubled slash, or one at an end,
leaves an empty name. -/
def pieces (path : String) : List String :=
  (Text.split '/' path.toList).map String.ofList

/-- The text after the last slash. -/
def name (path : String) : String := (pieces path).getLast?.getD ""

/-- An entry of a directory. -/
def join (directory entry : String) : String :=
  match directory.toList.getLast? with
  | none | some '/' => directory ++ entry
  | some _ => directory ++ "/" ++ entry

-- ================================================== stem, extension

/-- Cuts a name at its last dot, given and returned in reverse: what is
after the dot, and what is before it. -/
def cutAtDot (reversed : List Char) : List Char × List Char :=
  (reversed.takeWhile (· != '.'), reversed.dropWhile (· != '.'))

/-- The name before its last dot, and the text after the dot. A dot at
the start does not count, nor is there one in the name of the parent
directory. -/
def stemAndExtension (name : String) : String × Option String :=
  let (extension, stem) := cutAtDot name.toList.reverse
  match stem with
  | [] | [_] => (name, none)
  | _ :: stem =>
    if name = ".." then (name, none)
    else (String.ofList stem.reverse, some (String.ofList extension.reverse))

def stem (name : String) : String := (stemAndExtension name).1

def extension? (name : String) : Option String :=
  (stemAndExtension name).2

-- ============================================================ parents

/-- Drops slashes, and single dots after a slash, from the end of a path
in reverse. The root itself stays. -/
def trimEnd : List Char → List Char
  | '/' :: [] => ['/']
  | '/' :: rest => trimEnd rest
  | '.' :: '/' :: rest => trimEnd ('/' :: rest)
  | rest => rest

/-- The path of the directory that a path is in: the text before its last
name. The root and the empty path are in none; a bare name is in the
directory of the empty path. -/
def parent? (path : String) : Option String :=
  match trimEnd path.toList.reverse with
  | [] | ['/'] => none
  | reversed =>
    some (String.ofList
      (trimEnd (reversed.dropWhile (· != '/'))).reverse)

theorem length_trimEnd_le (reversed : List Char) :
    (trimEnd reversed).length ≤ reversed.length := by
  fun_induction trimEnd reversed with
  | case1 => exact Nat.le_refl _
  | case2 rest _ ih => exact Nat.le_succ_of_le ih
  | case3 rest ih => exact Nat.le_succ_of_le ih
  | case4 => exact Nat.le_refl _

/-- After trimming, only the root ends in a slash. -/
theorem eq_root_of_trimEnd_eq_cons {reversed rest : List Char}
    (h : trimEnd reversed = '/' :: rest) : rest = [] := by
  fun_induction trimEnd reversed with
  | case1 =>
    cases h
    rfl
  | case2 rest' _ ih => exact ih h
  | case3 rest' ih => exact ih h
  | case4 reversed hroot hslash =>
    subst h
    exact absurd rfl (hslash rest)

/-- A parent is shorter. -/
theorem length_parent_lt {path parent : String}
    (h : parent? path = some parent) : parent.length < path.length := by
  have hle := length_trimEnd_le path.toList.reverse
  rw [List.length_reverse, String.length_toList] at hle
  unfold parent? at h
  cases htrim : trimEnd path.toList.reverse with
  | nil =>
    rw [htrim] at h
    cases h
  | cons c rest =>
    rw [htrim] at h hle
    have hc : c ≠ '/' := by
      rintro rfl
      cases eq_root_of_trimEnd_eq_cons htrim
      cases h
    split at h
    · cases h
    · cases h
    · rename_i hreversed
      cases h
      have hdrop : (c :: rest).dropWhile (· != '/')
          = rest.dropWhile (· != '/') :=
        List.dropWhile_cons_of_pos (by simpa using hc)
      have hshort := length_trimEnd_le (rest.dropWhile (· != '/'))
      have hrest := (List.dropWhile_suffix (· != '/') (l := rest)).length_le
      rw [String.length_ofList, List.length_reverse, hdrop]
      rw [List.length_cons] at hle
      omega

/-- A path and the directories it is in, up to but not including the root
or the empty path. -/
def ancestors (path : String) : List String :=
  match _h : parent? path with
  | none => []
  | some parent => path :: ancestors parent
termination_by path.length
decreasing_by exact length_parent_lt _h

end JackSyntax.Command.Path
