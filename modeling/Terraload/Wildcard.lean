import Terraload.Text
/-!
Patterns for names: `*` for any text, `?` for any code point, and sets in brackets. A set takes
single code points and ranges, or with `!` in front all others; a bracket first in it stands for
itself, and a bracket that is not closed too.
-/
namespace Terraload

/-- A part of a set; a range whose ends are reversed is empty. -/
inductive SetItem
  | single (c : CodePoint)
  | range (low high : CodePoint)

def SetItem.holds (c : CodePoint) : SetItem → Bool
  | .single d => c = d
  | .range low high => low.val ≤ c.val && c.val ≤ high.val

inductive WildcardPart
  | anyText
  | anyOne
  | exactly (c : CodePoint)
  | oneOf (negated : Bool) (items : List SetItem)

namespace Wildcard

def isMagic (p : Text) : Bool :=
  p.any fun c => c == .char '*' || c == .char '?' || c == .char '['

def setItems : Text → List SetItem
  | a :: .char '-' :: b :: r => .range a b :: setItems r
  | a :: r => .single a :: setItems r
  | [] => []

/-- The inside of a set up to its closing bracket, and what follows; a bracket may come first. -/
def bracketed? (s : Text) : Option (Text × Text) :=
  let (mark, s) := match s with
    | .char '!' :: r => ([CodePoint.char '!'], r)
    | r => ([], r)
  let (first, s) := match s with
    | .char ']' :: r => ([CodePoint.char ']'], r)
    | r => ([], r)
  match s.dropWhile (· != .char ']') with
  | [] => none
  | _ :: r => some (mark ++ first ++ s.takeWhile (· != .char ']'), r)

def setPart : Text → WildcardPart
  | .char '!' :: r => .oneOf true (setItems r)
  | r => .oneOf false (setItems r)

/-- The parts of a pattern; `n` is at least its length. -/
def partsOf : Nat → Text → List WildcardPart
  | 0, _ => []
  | _, [] => []
  | n + 1, c :: r =>
    if c = .char '*' then .anyText :: partsOf n r
    else if c = .char '?' then .anyOne :: partsOf n r
    else if c = .char '[' then
      match bracketed? r with
      | some (s, r) => setPart s :: partsOf n r
      | none => .exactly c :: partsOf n r
    else .exactly c :: partsOf n r

def parts (p : Text) : List WildcardPart := partsOf p.length p

/-- Whether a test holds of some end of a text, tried on the longest one first. -/
def anyEnd (test : Text → Bool) : Text → Bool
  | [] => test []
  | c :: t => test (c :: t) || anyEnd test t

def matchParts : List WildcardPart → Text → Bool
  | [], t => t.isEmpty
  | .anyText :: ps, t => anyEnd (matchParts ps) t
  | .anyOne :: ps, _ :: t => matchParts ps t
  | .exactly d :: ps, c :: t => c = d && matchParts ps t
  | .oneOf negated is :: ps, c :: t => (is.any (SetItem.holds c) != negated) && matchParts ps t
  | _ :: _, [] => false

def accepts (p name : Text) : Bool := matchParts (parts p) name

def escape (p : Text) : Text :=
  p.flatMap fun c =>
    if c == .char '*' || c == .char '?' || c == .char '[' then [.char '[', c, .char ']'] else [c]

end Wildcard

end Terraload
