import Std.Time.Format
import Std.Time.Zoned
import Terraload.Command.Run
/-!
The program: a picture of the files around it is taken, the run is computed from the picture, and
its two texts are written.
-/
namespace Terraload

def nowhere : Text := text "/nowhere"

def draw (fs : FileSystem) (path : Text) (e : IO.FS.DirEntry) : Nat → IO FileSystem
  | 0 => return fs
  | depth + 1 => do
    try
      let own ← e.path.symlinkMetadata
      match own.type with
      | .file => return fs.write path (← IO.FS.readBinFile e.path).toList
      | .dir =>
        let mut fs := fs.makeDirectory path
        for inner in ← e.path.readDir do
          fs ← draw fs (Path.join path (text inner.fileName)) inner depth
        return fs
      | .symlink =>
        if ← e.path.isDir then
          return fs.link path (text (← IO.FS.realPath e.path).toString)
        else if ← e.path.pathExists then
          return fs.write path (← IO.FS.readBinFile e.path).toList
        else return fs.link path nowhere
      | .other => return fs
    catch _ => return fs

def treeDepth : Nat := 256
def namedDepth : Nat := 2

def environment : IO (List (String × String)) := do
  try
    let bytes ← IO.FS.readBinFile "/proc/self/environ"
    let texts := ((String.fromUTF8? bytes).getD "").splitOn "\x00"
    return texts.filterMap fun t =>
      match t.splitOn "=" with
      | name :: value => if value.isEmpty then none else some (name, "=".intercalate value)
      | [] => none
  catch _ => return []

def namedPaths (arguments : List String) (pairs : List (String × String)) : List String :=
  let parts := arguments.flatMap fun a => a :: (a.splitOn "=").drop 1
  parts ++ (pairs.filter fun v => v.1.startsWith "TFLINT_").map (·.2)

def picture (paths : List String) : IO FileSystem := do
  let here ← IO.currentDir
  let mut fs := FileSystem.empty (Path.names (text here.toString))
  fs ← draw fs Path.dot ⟨here, "."⟩ treeDepth
  for p in paths do
    unless p.isEmpty || fs.exists? (text p) do
      fs ← draw fs (text p) ⟨here, p⟩ namedDepth
  return fs

def timeText : IO String := do
  let now ← Std.Time.Timestamp.now
  return (Std.Time.DateTime.ofTimestamp now Std.Time.TimeZone.ZoneRules.UTC).format
    "uuuu-MM-dd\x27T\x27HH:mm:ss.SSSSSS\x27Z\x27"

def sessionName : IO String := do
  let bytes := (← IO.getRandomBytes 16).toList.zipIdx.map fun (b, i) =>
    if i = 6 then b % 16 + 64 else if i = 8 then b % 64 + 128 else b
  let group (start count : Nat) : String :=
    String.ofList (((bytes.drop start).take count).flatMap fun b => hexDigits 2 b.toNat)
  return "-".intercalate [group 0 4, group 4 2, group 6 2, group 8 2, group 10 6]

def shownString (t : Text) : String := String.ofList (t.map fun c => c.toChar?.getD '\uFFFD')

def runProgram (arguments : List String) : IO UInt32 := do
  let pairs ← environment
  let surroundings : Surroundings := {
    files := ← picture (namedPaths arguments pairs)
    environment := pairs.map fun v => (text v.1, text v.2)
    time := text (← timeText)
    session := text (← sessionName) }
  let ending := Command.run surroundings (arguments.map text)
  (← IO.getStderr).putStr (shownString ending.errors)
  if let some crash := ending.crash then
    (← IO.getStderr).putStrLn (shownString crash.message)
  (← IO.getStdout).putStr (shownString ending.output)
  return UInt32.ofNat ending.code

end Terraload

def main (arguments : List String) : IO UInt32 := Terraload.runProgram arguments
