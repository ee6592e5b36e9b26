/-
RangedIR.Command.Path — names of files and where they stand in a path.

A path is a text whose parts are separated by slashes. Parts that are empty or
a single dot say nothing, except for the slash or dot at the very front. Names
are changed in place: what stands in front of them is kept as it is written.
-/
import RangedIR.Text.Digits

namespace RangedIR.Path

open Text

/-! ## 1. Parts -/

/-- The slash or the dot at the front of a path. -/
def front (path : List Char) : List Char :=
  match path with
  | '/' :: _ => ['/']
  | ['.'] => ['.']
  | '.' :: '/' :: _ => ['.']
  | _ => []

/-- The parts of a path behind its front. -/
def parts (path : List Char) : List (List Char) := splitAt '/' (path.drop (front path).length)

/-- Whether a part says nothing. -/
def isVoid (part : List Char) : Bool := part == [] || part == ['.']

/-- Parts without those at the end that say nothing. -/
def dropVoid (ps : List (List Char)) : List (List Char) :=
  (ps.reverse.dropWhile isVoid).reverse

/-- Parts with slashes between them. -/
def joined (ps : List (List Char)) : List Char := List.intercalate ['/'] ps

/-- A path cut before its last part. -/
structure Split where
  /-- The front of the path. -/
  front : List Char
  /-- The parts before the last. -/
  before : List (List Char)
  /-- The last part, unless it is the parent directory or there is none. -/
  name : Option (List Char)

/-- Cut a path before its last part. -/
def split (path : List Char) : Split :=
  let ps := dropVoid (parts path)
  match ps.getLast? with
  | none => ⟨front path, ps, none⟩
  | some last => if last == ['.', '.'] then ⟨front path, ps, none⟩ else ⟨front path, ps.dropLast, some last⟩

/-! ## 2. Names -/

/-- A name cut at its last dot: what stands before and behind it. A name that
only starts with a dot is not cut. -/
def splitName (name : List Char) : List Char × Option (List Char) :=
  let behind := (name.reverse.takeWhile (· != '.')).reverse
  let before := name.take (name.length - behind.length - 1)
  if before.isEmpty then (name, none) else (before, some behind)

/-- Put a name behind a path. -/
def push (path name : List Char) : List Char :=
  match path.getLast? with
  | none => name
  | some c => if c == '/' then path ++ name else path ++ '/' :: name

/-- The directory that a path stands in; the path itself if it has no name. -/
def directory (path : List Char) : List Char :=
  let s := split path
  match s.name with
  | none => path
  | some _ => s.front ++ joined (dropVoid s.before)

/-- A path with another name. -/
def withName (path name : List Char) : List Char := push (directory path) name

/-- A path with another ending behind the last dot of its name. -/
def withExtension (path extension : List Char) : List Char :=
  let s := split path
  match s.name with
  | none => path
  | some name =>
    let lead := if s.before.isEmpty then [] else joined s.before ++ ['/']
    s.front ++ lead ++ (splitName name).1 ++ '.' :: extension

/-- The path next to an input with a suffix at the end of its name. -/
def outputPath (input suffix : String) : String :=
  let path := input.toList
  let (stem, extension) := match (split path).name with
    | some name => splitName name
    | none => ([], none)
  let name := stem ++ '_' :: suffix.toList ++
    match extension with
    | some e => '.' :: e
    | none => []
  String.ofList (withName path name)

end RangedIR.Path
