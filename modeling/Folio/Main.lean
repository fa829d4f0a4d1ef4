import Folio.Assembly.Assembler
import Folio.Flow.Engine
import Folio.Json.Parser

/-!
Command line: builds the document of one file and writes it to another. With `--stream` the file
holds forms one behind the other instead of one array. Images are looked for below the current
directory; a build that stops at one is run again with what was found.
-/
namespace Folio.Main

open Assembly Resource

structure Command where
  input : String
  output : String
  stream : Bool
  deriving DecidableEq, Repr

def usage : String := "usage: folio INPUT OUTPUT [--stream]"

/-- Two paths and at most one flag, in any order. -/
def Command.ofArgs? (args : List String) : Option Command :=
  let (flags, paths) := args.partition fun a => a.startsWith "-"
  match flags, paths with
  | [], [input, output] => some ⟨input, output, false⟩
  | ["--stream"], [input, output] => some ⟨input, output, true⟩
  | _, _ => none

/-- Files that were looked for, with what became of them. -/
abbrev Known := List (String × Except ResourceError Bytes)

def Known.provider (known : Known) : Provider where
  name := "files below the current directory"
  load path := (known.lookup path).getD (.error (.notFound path))
  exists? path := ((known.lookup path).map Except.isOk).getD false

def assembler (known : Known) : Assembler (Flow.Layout Single) where
  engine := Flow.standardEngine
  renderers _ := none
  resources := known.provider
  bitmaps := .empty
  pageEvents := []
  pageStamps := []

/-- What a build comes to, and the destination it leaves behind. -/
structure Outcome where
  result : Except PipelineError BuildSummary
  destination : Destination

def Command.build (command : Command) (text : String) (known : Known) : Outcome :=
  let a := assembler known
  let act :=
    if command.stream then a.buildFromText text
    else
      match Json.parse? text with
      | some document => a.build document
      | none => throw .malformed
  let (result, progress) := act.run (a.begin .memory)
  ⟨result, progress.destination⟩

/-- The file that a build stopped at, if it was not looked for yet. -/
def Outcome.wanted? (o : Outcome) (known : Known) : Option String :=
  match o.result with
  | .error (.compile (.resource (.notFound path))) =>
    if (known.lookup path).isNone then some path else none
  | _ => none

/-- The names of the path that a walk along `path` ends in. -/
def walkTo (path : String) : IO (Except PathError (List String)) := do
  try
    let found ← IO.FS.realPath path
    return .ok (Destination.namesOf found.toString)
  catch _ => return .error .missing

def look (path : String) : IO (Except ResourceError Bytes) := do
  let joined := Resource.joined "." path
  match Folder.permit (← walkTo ".") joined path (← walkTo joined) with
  | .error error => return .error error
  | .ok target =>
    let place := match target with
      | .canonical names => "/" ++ String.intercalate "/" names
      | .written path => path
    try
      let data ← IO.FS.readBinFile place
      return .ok data.toList
    catch
      | .noFileOrDirectory .. => return .error (.notFound path)
      | error => return .error (.loadFailed path (toString error))

/-- Builds again as long as there is a file to look for. -/
partial def buildWith (command : Command) (text : String) (known : Known) : IO Outcome := do
  let outcome := command.build text known
  match outcome.wanted? known with
  | some path => buildWith command text ((path, ← look path) :: known)
  | none => return outcome

/-- Makes the file that a build opened, and the directories above it. -/
def save (output : String) (destination : Destination) : IO Unit := do
  if destination.opened then
    let above := String.intercalate "/" (output.splitOn "/").dropLast
    if above != "" then IO.FS.createDirAll above
    IO.FS.writeBinFile output ⟨(destination.written.flatMap Payload.encoded).toArray⟩

def run (command : Command) : IO UInt32 := do
  let outcome ← buildWith command (← IO.FS.readFile command.input) []
  save command.output outcome.destination
  match outcome.result with
  | .ok summary =>
    IO.println ("Generated " ++ command.output ++ " (" ++ toString summary.pages ++ " pages)")
    return 0
  | .error error =>
    IO.eprintln ("Error: " ++ error.message)
    return 1

end Folio.Main

/-- Builds the document that the arguments name. -/
def main (args : List String) : IO UInt32 := do
  match Folio.Main.Command.ofArgs? args with
  | some command => Folio.Main.run command
  | none =>
    IO.eprintln Folio.Main.usage
    return 2
