import Terraload.Encoding
import Terraload.Path
/-!
A file system as a set of places, each a row of names from the root, with what is there. Links are
resolved on the way, as many as forty for one path.
-/
namespace Terraload

/-- A row of names from the root. -/
abbrev Place := List Text

inductive Node
  | file (content : Bytes)
  | link (target : Text)
  | directory
  deriving DecidableEq

/-- What is at which place, each place at most once, and the place that relative paths start from. -/
structure FileSystem where
  nodes : List (Place × Node)
  unique : (nodes.map Prod.fst).Nodup
  current : Place

inductive PathError
  | absent
  | notDirectory
  | tooLong
  | tooManyLinks
  | nul
  | unencodable
  deriving DecidableEq

namespace FileSystem

theorem nodup_takes (current : Place) :
    (((List.range current.length).map fun i =>
      (current.take (i + 1), Node.directory)).map Prod.fst).Nodup := by
  rw [List.map_map, List.Nodup, List.pairwise_map]
  refine List.nodup_range.imp_of_mem fun {i j} hi hj hne heq => hne ?_
  have hlength := congrArg List.length heq
  simp only [Function.comp_apply, List.length_take, List.mem_range] at hlength hi hj
  omega

def empty (current : Place) : FileSystem where
  nodes := (List.range current.length).map fun i => (current.take (i + 1), .directory)
  unique := nodup_takes current
  current := current

/-- What is at a place. The places above the start are directories. -/
def node? (fs : FileSystem) (p : Place) : Option Node :=
  if p.isPrefixOf fs.current then some .directory else fs.nodes.lookup p

theorem nodup_filter_append {nodes : List (Place × Node)} (h : (nodes.map Prod.fst).Nodup)
    (p : Place) (n : Node) :
    ((nodes.filter (fun e => e.1 != p) ++ [(p, n)]).map Prod.fst).Nodup := by
  rw [List.map_append, List.nodup_append]
  refine ⟨?_, by simp, ?_⟩
  · exact List.Nodup.sublist (List.Sublist.map _ List.filter_sublist) h
  · intro a ha b hb
    simp only [List.mem_map, List.mem_filter] at ha hb
    obtain ⟨e, ⟨_, he⟩, rfl⟩ := ha
    obtain ⟨f, hf, rfl⟩ := hb
    simp only [List.mem_singleton] at hf
    subst hf
    simpa using he

def insert (fs : FileSystem) (p : Place) (n : Node) : FileSystem :=
  { fs with
    nodes := fs.nodes.filter (fun e => e.1 != p) ++ [(p, n)]
    unique := nodup_filter_append fs.unique p n }

def erase (fs : FileSystem) (p : Place) : FileSystem :=
  { fs with
    nodes := fs.nodes.filter (fun e => !p.isPrefixOf e.1)
    unique := List.Nodup.sublist (List.Sublist.map _ List.filter_sublist) fs.unique }

def children (fs : FileSystem) (p : Place) : List Text :=
  fs.nodes.filterMap fun e =>
    match e.1.getLast? with
    | some n => if e.1.dropLast == p then some n else none
    | none => none

def nameLimit : Nat := 255
def pathLimit : Nat := 4095
def linkLimit : Nat := 40

def pathSteps (p : Text) : List Text :=
  let ns := (Path.parts p).filter fun c => !c.isEmpty
  if p.getLast? == some Path.slash then ns ++ [Path.dot] else ns

def startOf (here : Place) (p : Text) : Place :=
  match p with
  | .char '/' :: _ => []
  | _ => here

/-- Follows steps from a directory. `jump` goes on from a place along the steps of a link and those
behind it. A link at the end is followed only if `follow` holds. -/
def walkWith (fs : FileSystem) (follow : Bool)
    (jump : Place → List Text → Except PathError (Place × Node)) (here : Place) :
    List Text → Except PathError (Place × Node)
  | [] => .ok (here, .directory)
  | c :: rest =>
    if c == Path.dot then walkWith fs follow jump here rest
    else if c == Path.dotdot then walkWith fs follow jump here.dropLast rest
    else if nameLimit < (Encoding.encode c).length then .error .tooLong
    else
      let next := here ++ [c]
      match fs.node? next with
      | none => .error .absent
      | some .directory => walkWith fs follow jump next rest
      | some (.file b) => if rest.isEmpty then .ok (next, .file b) else .error .notDirectory
      | some (.link t) =>
        if rest.isEmpty && !follow then .ok (next, .link t)
        else if pathLimit < (Encoding.encode t).length then .error .tooLong
        else jump (startOf here t) (pathSteps t ++ rest)

def walk (fs : FileSystem) (follow : Bool) :
    Nat → Place → List Text → Except PathError (Place × Node)
  | 0, here, cs => walkWith fs follow (fun _ _ => .error .tooManyLinks) here cs
  | n + 1, here, cs => walkWith fs follow (walk fs follow n) here cs

def find (fs : FileSystem) (follow : Bool) (p : Text) : Except PathError (Place × Node) :=
  if p.contains (.char '\x00') then .error .nul
  else if p.isEmpty then .error .absent
  else if pathLimit < (Encoding.encode p).length then .error .tooLong
  else walk fs follow linkLimit (startOf fs.current p) (pathSteps p)

/-- Where a path leads. One that cannot be encoded leads nowhere, and fails before anything else is
looked at. -/
def locate (fs : FileSystem) (follow : Bool) (p : Text) : Except PathError (Place × Node) :=
  match find fs follow p with
  | .ok r => .ok r
  | .error e => .error (if p.all Encoding.encodable then e else .unencodable)

def exists? (fs : FileSystem) (p : Text) : Bool := (fs.locate true p).isOk

/-- Whether a path leads to something, or to a link that leads nowhere. -/
def linkExists? (fs : FileSystem) (p : Text) : Bool := (fs.locate false p).isOk

def isDirectory (fs : FileSystem) (p : Text) : Bool :=
  match fs.locate true p with
  | .ok (_, .directory) => true
  | _ => false

def list (fs : FileSystem) (p : Text) : Except PathError (List Text) :=
  match fs.locate true p with
  | .ok (q, .directory) => .ok (fs.children q)
  | .ok _ => .error .notDirectory
  | .error e => .error e

def makeWay (fs : FileSystem) (here : Place) : List Text → FileSystem × Option Place
  | [] => (fs, some here)
  | c :: rest =>
    match fs.walk true linkLimit here [c] with
    | .ok (q, .directory) => makeWay fs q rest
    | .error .absent =>
      if (fs.node? (here ++ [c])).isSome then (fs, none)
      else makeWay (fs.insert (here ++ [c]) .directory) (here ++ [c]) rest
    | _ => (fs, none)

def parent (p : Text) : List Text × Option Text :=
  let ns := Path.names p
  (ns.dropLast, ns.getLast?)

def makeDirectory (fs : FileSystem) (p : Text) : FileSystem :=
  (fs.makeWay (startOf fs.current p) (Path.names p)).1

def writeAt (fs : FileSystem) (content : Bytes) : Nat → Place → Text → FileSystem
  | 0, _, _ => fs
  | n + 1, here, name =>
    match fs.node? (here ++ [name]) with
    | some .directory => fs
    | some (.link t) =>
      match parent t with
      | (way, some last) =>
        match fs.walk true linkLimit (startOf here t) way with
        | .ok (q, .directory) => writeAt fs content n q last
        | _ => fs
      | (_, none) => fs
    | _ => fs.insert (here ++ [name]) (.file content)

def write (fs : FileSystem) (p : Text) (content : Bytes) : FileSystem :=
  match parent p with
  | (way, some name) =>
    match fs.makeWay (startOf fs.current p) way with
    | (fs, some here) => fs.writeAt content linkLimit here name
    | (fs, none) => fs
  | (_, none) => fs

def link (fs : FileSystem) (p target : Text) : FileSystem :=
  match parent p with
  | (way, some name) =>
    match fs.makeWay (startOf fs.current p) way with
    | (fs, some here) =>
      if (fs.node? (here ++ [name])).isSome then fs else fs.insert (here ++ [name]) (.link target)
    | (fs, none) => fs
  | (_, none) => fs

def remove (fs : FileSystem) (p : Text) : FileSystem :=
  match fs.locate false p with
  | .ok (q, _) => fs.erase q
  | .error _ => fs

end FileSystem

end Terraload
