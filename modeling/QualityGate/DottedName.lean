import QualityGate.Text.Segments

/-! Dotted names such as `os.path.join`: their first and last segment, which both occur in the name
as they are, and whether a name is public. -/
namespace QualityGate.DottedName

/-- The text after the last dot, or the whole name. -/
def last (name : String) : String :=
  String.ofList ((Text.split '.' name.toList).getLastD [])

/-- The text before the first dot, or the whole name. -/
def root (name : String) : String :=
  String.ofList ((Text.split '.' name.toList).headD [])

/-- A name is public when it does not start with an underscore. -/
def isPublic (name : String) : Bool := name.toList.head? != some '_'

/-- The name of a definition below its enclosing definitions, outermost first. -/
def qualified (scope : List String) (name : String) : String :=
  Text.joinStrings "." (scope ++ [name])

theorem toList_root (name : String) : (root name).toList = name.toList.takeWhile (· ≠ '.') := by
  rw [root, String.toList_ofList, Text.headD_split]

theorem last_isInfix (name : String) : (last name).toList <:+: name.toList := by
  rw [last, String.toList_ofList]
  cases hsegments : (Text.split '.' name.toList).getLast? with
  | none => simp [List.getLastD_eq_getLast?, hsegments]
  | some s =>
    rw [List.getLastD_eq_getLast?, hsegments]
    exact Text.isInfix_of_mem_split (List.mem_of_getLast? hsegments)

end QualityGate.DottedName
