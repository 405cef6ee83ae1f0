/-!
# Paths

File paths as text: parts between slashes, of which empty ones and single dots say nothing.
-/

namespace Assembler.Path

/-- The texts between the slashes of a path. -/
def parts (path : String) : List String := (path.toList.splitOn '/').map String.ofList

/-- A path, last character first, without the slashes and single dots at its end. -/
def trimReversed : List Char → List Char
  | ['/'] => ['/']
  | '/' :: rest => trimReversed rest
  | '.' :: '/' :: rest => trimReversed ('/' :: rest)
  | path => path
termination_by path => path.length

/-- The text of a path before its last part, and the last part. -/
def split (path : String) : String × String :=
  let reversed := trimReversed path.toList.reverse
  let notSlash := fun c : Char => c != '/'
  (String.ofList (reversed.dropWhile notSlash).reverse,
    String.ofList (reversed.takeWhile notSlash).reverse)

/-- The directory that a path leads to a file in. -/
def directory (path : String) : String :=
  match trimReversed (split path).1.toList.reverse with
  | [] => "."
  | reversed => String.ofList reversed.reverse

/-- A path that starts from a directory, unless it starts from the root. -/
def join (directory path : String) : String :=
  if path.startsWith "/" then path
  else if directory.isEmpty || directory.endsWith "/" then directory ++ path
  else directory ++ "/" ++ path

/-- A file name without what follows its last dot; a dot at the start of a name belongs to it. -/
def stem (name : String) : String :=
  let reversed := name.toList.reverse
  match reversed.dropWhile (· != '.') with
  | '.' :: before => if before.isEmpty then name else String.ofList before.reverse
  | _ => name

/-- What follows the last dot of a file name, if that dot is not at its start. -/
def extension (name : String) : String :=
  String.ofList (name.toList.drop ((stem name).length + 1))

/-- A path with an extension in place of what follows its last dot. The old extension is cut off
first, dot kept; if that leaves nothing with a name (`..x` leaves `..`), nothing is added. -/
def withExtension (path newExtension : String) : String :=
  let cut := String.ofList (path.toList.take (path.length - (extension (split path).2).length))
  let (before, name) := split cut
  if name.isEmpty || name = "." || name = ".." then cut
  else before ++ stem name ++ "." ++ newExtension

end Assembler.Path
