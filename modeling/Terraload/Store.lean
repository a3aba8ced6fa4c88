import Terraload.Encoding
import Terraload.Value
/-!
The files of a session by logical key: one map of what was parsed, and one of the bytes it was parsed
from. A file is put into both.
-/
namespace Terraload

def normalizeKey (path : Text) : Text :=
  path.map fun c => if c = .char '\\' then .char '/' else c

structure Filed where
  document : Document
  content : Bytes

structure Store where
  templates : Members Document
  files : Members Bytes
  deriving DecidableEq

namespace Store

def empty : Store := ⟨[], []⟩

def put (s : Store) (key : Text) (document : Document) (content : Bytes) : Store :=
  ⟨s.templates.put key document, s.files.put key content⟩

def get? (s : Store) (key : Text) : Option Filed :=
  match s.templates.get? key, s.files.get? key with
  | some d, some bytes => some ⟨d, bytes⟩
  | _, _ => none

def size (s : Store) : Nat := s.templates.length

def keys (s : Store) : List Text := s.templates.sorted.map (·.1)

end Store

end Terraload
