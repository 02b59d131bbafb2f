import DeclBridge.Text.Alphanumeric

/-!
# Package names from import paths

A package that was not loaded still needs a name.  It is guessed from the import path: the last
segment, or the one before it where the last is a major version such as `v2`, without a leading
`go-` or `go.`, and with an underscore for every character that no identifier has.
-/

namespace DeclBridge

def isMajorVersion (segment : List Char) : Bool :=
  match segment with
  | 'v' :: rest => !rest.isEmpty && rest.all Text.isDigit
  | _ => false

/-- A text without a given beginning, if something is left after it. -/
def dropLeading (start cs : List Char) : List Char :=
  if start.isPrefixOf cs && start.length < cs.length then cs.drop start.length else cs

def namingSegment (path : String) : Option (List Char) :=
  let segments := (path.toList.splitOn '/').filter (!·.isEmpty)
  match segments.reverse with
  | [] => none
  | [only] => some only
  | last :: before :: _ => some (if isMajorVersion last then before else last)

def defaultPackageName (path : String) : String :=
  match namingSegment path with
  | none => "pkg"
  | some segment =>
    let stem := dropLeading "go.".toList (dropLeading "go-".toList segment)
    let letters := stem.map fun c => if Text.isWordChar c then c else '_'
    if letters.head?.all Text.isDigit then String.ofList ('_' :: letters)
    else String.ofList letters

end DeclBridge
