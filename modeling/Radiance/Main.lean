import Radiance.CommandLine
import Radiance.Description.References
import Radiance.Files.Encoding

/-!
# The program

Reads the files that a scene needs, runs the command line on them, and writes the image.
-/

namespace Radiance.Program

/-- The list of options. -/
def usage : String :=
  "Render a scene description\n\n" ++
  "Usage: radiance [OPTIONS] <SCENE>\n\n" ++
  "Arguments:\n  <SCENE>  Scene description (JSON)\n\n" ++
  "Options:\n" ++
  "  -o, --output <OUTPUT>          Write the image here instead of the scene's output path\n" ++
  "      --spp <SPP>                Samples per pixel, overriding the scene's sampler\n" ++
  "  -t, --threads <THREADS>        Worker threads (defaults to one per core)\n" ++
  "      --block-size <BLOCK_SIZE>  Edge length of the square blocks handed to workers " ++
  "[default: 64]\n" ++
  "  -h, --help                     Print help\n" ++
  "  -V, --version                  Print version\n"

/-- The content of a file on disk, if it can be read. -/
def readContent (path : String) : IO (Option FileContent) := do
  try
    if (PathName.ending? path).any imageEndings.contains then
      return Encoding.pixmap? (← IO.FS.readBinFile path)
    else return some (.text (← IO.FS.readFile path))
  catch _ => return none

/-- The tree with a file read from disk. -/
def readInto (files : FileTree) (path : String) : IO FileTree := do
  match ← readContent path with
  | none => return files
  | some content => return { files with files := (FileTree.place path, content) :: files.files }

/-- The files that a scene needs. -/
def readScene (path : String) : IO FileTree := do
  let files ← readInto {} path
  match Description.load files.assets path with
  | .error _ => return files
  | .ok (d, _) =>
    d.fileNames.foldlM (fun files name => readInto files (PathName.join (Job.baseOf path) name))
      files

/-- Writes an image, with the directories above it. -/
def writeImage (path : String) (content : FileContent) : IO Bool := do
  match content.encode? ((PathName.ending? path).getD "") with
  | none => return false
  | some bytes =>
    try
      match PathName.parent? path with
      | none => pure ()
      | some "" => pure ()
      | some parent => IO.FS.createDirAll parent
      IO.FS.writeBinFile path bytes
      return true
    catch _ => return false

/-- Renders the scene of some options and writes its image. -/
def renderScene (options : Options) : IO (Except CommandLine.Failure Unit) := do
  match CommandLine.job (← readScene options.scene).assets options with
  | .error failure => return .error failure
  | .ok job =>
    let image := job.image (CommandLine.Options.bucketSize options)
    match image.content? ((PathName.ending? job.output).getD "") with
    | none => return .error (.save job.output)
    | some content =>
      if ← writeImage job.output content then return .ok ()
      else return .error (.save job.output)

/-- Does what the arguments ask for, and gives the exit code. -/
def run (arguments : List String) : IO UInt32 := do
  match CommandLine.read arguments with
  | .error stop =>
    match stop with
    | .help => IO.print usage
    | .version => IO.println "radiance 0.1.0"
    | .misuse => IO.eprint usage
    return stop.exitCode.toUInt32
  | .ok options =>
    match ← renderScene options with
    | .ok () => return 0
    | .error failure =>
      IO.eprintln failure.message
      return failure.exitCode.toUInt32

end Radiance.Program

def main (arguments : List String) : IO UInt32 := Radiance.Program.run arguments
