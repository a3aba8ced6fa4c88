import Terraload.FileSystem
import Terraload.Wildcard
/-!
The paths that match a pattern. Each part of a pattern is a wildcard for names; where the search is
deep, a part of two stars stands for any number of directories. A pattern that does not ask for
hidden names does not find them.
-/
namespace Terraload.Glob

def deepMark : Text := text "**"

def hidden (name : Text) : Bool :=
  match name with
  | .char '.' :: _ => true
  | _ => false

def below (dir name : Text) : Text :=
  if dir.isEmpty then name else if name.isEmpty then dir else Path.join dir name

/-- The names in a directory, or only those of directories. What cannot be listed has none. -/
def names (fs : FileSystem) (directories : Bool) (dir : Text) : List Text :=
  let d := if dir.isEmpty then Path.dot else dir
  match fs.list d with
  | .error _ => []
  | .ok ns => if directories then ns.filter fun n => fs.isDirectory (Path.join d n) else ns

def matching (fs : FileSystem) (directories : Bool) (dir part : Text) : List Text :=
  (names fs directories dir).filter fun n =>
    (hidden part || !hidden n) && Wildcard.accepts part n

def single (fs : FileSystem) (dir name : Text) : List Text :=
  if name.isEmpty then (if fs.isDirectory dir then [name] else [])
  else if fs.linkExists? (below dir name) then [name] else []

def visible (fs : FileSystem) (directories : Bool) (dir : Text) : List Text :=
  (names fs directories dir).filter fun n => !hidden n

def allBelow (fs : FileSystem) (directories : Bool) : Nat → Text → List Text
  | 0, _ => []
  | n + 1, dir => (visible fs directories dir).flatMap fun x =>
    x :: (allBelow fs directories n (below dir x)).map (below x)

/-- No path is deeper than this. -/
def depthLimit : Nat := FileSystem.pathLimit

def inDirectory (fs : FileSystem) (deep directories : Bool) (dir part : Text) : List Text :=
  if !Wildcard.isMagic part then single fs dir part
  else if deep && part == deepMark then
    (if dir.isEmpty || fs.isDirectory dir then [[]] else [])
      ++ allBelow fs directories depthLimit dir
  else matching fs directories dir part

/-- The paths that match a pattern, from its last part down to its first; `n` exceeds the number of
its parts. -/
def search (fs : FileSystem) (deep : Bool) : Nat → Bool → Text → List Text
  | 0, _, _ => []
  | n + 1, directories, p =>
    let (dir, part) := Path.split p
    if !Wildcard.isMagic p then
      if (if part.isEmpty then fs.isDirectory dir else fs.linkExists? p) then [p] else []
    else if dir.isEmpty then inDirectory fs deep directories dir part
    else
      let dirs := if dir != p && Wildcard.isMagic dir then search fs deep n true dir else [dir]
      dirs.flatMap fun d => (inDirectory fs deep directories d part).map (Path.join d)

def parents (fs : FileSystem) (deep : Bool) (n : Nat) (p : Text) : List Text :=
  let dir := (Path.split p).1
  if dir != p && Wildcard.isMagic dir then search fs deep n true dir else [dir]

def start? : Nat → Text → Option Text
  | 0, _ => none
  | n + 1, p =>
    let dir := (Path.split p).1
    if !Wildcard.isMagic p then none
    else if dir != p && Wildcard.isMagic dir then start? n dir
    else some dir

structure Unlisted where
  directory : Text
  error : PathError

def unlisted? (fs : FileSystem) (p : Text) : Option Unlisted :=
  match start? (p.length + 1) p with
  | none => none
  | some dir =>
    match fs.list dir with
    | .error .nul => some ⟨dir, .nul⟩
    | .error .unencodable => some ⟨dir, .unencodable⟩
    | _ => none

abbrev Found := Except Unlisted (List Text)

/-- The paths that match a pattern, in ascending order. Two stars at the start of a deep pattern
find the current directory, which has no path and is left out. -/
def paths (fs : FileSystem) (deep : Bool) (p : Text) : Found :=
  match unlisted? fs p with
  | some u => .error u
  | none =>
    let found := search fs deep (p.length + 1) false p
    let found := if deep && p.take 2 == deepMark then
        match found with
        | [] :: rest => rest
        | all => all
      else found
    .ok (found.mergeSort Text.le)

def greatest (ns : List Nat) : Nat := ns.foldr max 0

def depthBelow (fs : FileSystem) (directories : Bool) : Nat → Text → Nat
  | 0, _ => 0
  | n + 1, dir => greatest ((visible fs directories dir).map fun x =>
    depthBelow fs directories n (below dir x) + 1)

/-- How many calls stand in each other when a pattern is searched for: one for each part up to the
first with wildcards, and one for each directory that a deep search is in. -/
def levelsFrom (fs : FileSystem) (deep : Bool) : Nat → Bool → Text → Nat
  | 0, _, _ => 0
  | n + 1, directories, p =>
    let (dir, part) := Path.split p
    if !Wildcard.isMagic p then 0
    else
      let inner := if dir != p then levelsFrom fs deep n true dir else 0
      let here := if deep && part == deepMark then
          greatest ((parents fs deep n p).map (depthBelow fs directories depthLimit))
        else 0
      max inner here + 1

def levels (fs : FileSystem) (deep : Bool) (p : Text) : Nat :=
  levelsFrom fs deep (p.length + 1) false p

end Terraload.Glob
