import Radiance.Job

/-!
# The command line

Arguments of the renderer, and what a run does to the files.

## Main definitions

* `Options`: what the arguments ask for.
* `CommandLine.read`: reads arguments from left to right.
* `CommandLine.run`: renders the scene that the arguments name.
-/

namespace Radiance

/-- What the arguments ask for. -/
structure Options where
  /-- The scene file. -/
  scene : String
  /-- Where the image goes, instead of where the scene says. -/
  output : Option String := none
  /-- Samples per pixel, instead of the number the scene says. -/
  samplesPerPixel : Option UInt32 := none
  /-- The number of workers, which the image does not depend on. -/
  threads : Option Nat := none
  blockSize : UInt32 := 64
  deriving Repr, DecidableEq, Inhabited

namespace CommandLine

/-- Why the arguments name nothing to render. -/
inductive Stop
  /-- The list of options is asked for. -/
  | help
  | version
  | misuse
  deriving Repr, DecidableEq, Inhabited

/-- The arguments read so far. -/
structure Draft where
  scene : Option String := none
  output : Option String := none
  samplesPerPixel : Option UInt32 := none
  threads : Option Nat := none
  blockSize : Option UInt32 := none
  deriving Repr, DecidableEq, Inhabited

/-- The options that take a value. -/
inductive Setting
  | output | samplesPerPixel | threads | blockSize
  deriving Repr, DecidableEq, Inhabited

/-- A word of 32 bits: an integer, with an optional sign, that is in range. -/
def word? (text : String) : Option UInt32 := do
  let n ← Numeral.integer? text
  if 0 ≤ n ∧ n < UInt32.size then some (UInt32.ofNat n.toNat) else none

/-- A count: digits with an optional plus sign. -/
def count? (text : String) : Option Nat := do
  let n ← Numeral.natural? (match text.toList with | '+' :: ds => ds | ds => ds)
  if n < UInt64.size then some n else none

/-- A path, which is never empty. -/
def path? (text : String) : Option String := if text = "" then none else some text

/-- Fills a place that is still free. -/
def fill {β : Type} (place : Option β) (value? : Option β) : Except Stop (Option β) :=
  match place, value? with
  | none, some value => .ok (some value)
  | _, _ => .error .misuse

/-- Takes a value for an option.  No option is given twice. -/
def Draft.set (p : Draft) (setting : Setting) (text : String) : Except Stop Draft := do
  match setting with
  | .output => return { p with output := ← fill p.output (path? text) }
  | .samplesPerPixel => return { p with samplesPerPixel := ← fill p.samplesPerPixel (word? text) }
  | .threads => return { p with threads := ← fill p.threads (count? text) }
  | .blockSize => return { p with blockSize := ← fill p.blockSize (word? text) }

/-- Takes an argument that belongs to no option. -/
def Draft.positional (p : Draft) (text : String) : Except Stop Draft := do
  return { p with scene := ← fill p.scene (path? text) }

/-- What an argument with two dashes asks for. -/
def longName? : String → Option (Except Stop Setting)
  | "output" => some (.ok .output)
  | "spp" => some (.ok .samplesPerPixel)
  | "threads" => some (.ok .threads)
  | "block-size" => some (.ok .blockSize)
  | "help" => some (.error .help)
  | "version" => some (.error .version)
  | _ => none

/-- What a letter after one dash asks for. -/
def shortName? : Char → Option (Except Stop Setting)
  | 'o' => some (.ok .output)
  | 't' => some (.ok .threads)
  | 'h' => some (.error .help)
  | 'V' => some (.error .version)
  | _ => none

/-- An argument by its form. -/
inductive Form
  | positional (text : String)
  /-- An option whose value, if it is not attached, is the next argument. -/
  | setting (setting : Setting) (attached : Option String)
  | stop (reason : Stop)
  /-- All further arguments belong to no option. -/
  | endOfOptions
  deriving Repr, DecidableEq, Inhabited

/-- The form of a name with an attached value. -/
def Form.ofName (name : Option (Except Stop Setting)) (attached : Option String)
    (isLong : Bool) : Form :=
  match name with
  | none => stop .misuse
  | some (.ok s) => setting s attached
  | some (.error reason) => stop (if isLong && attached.isSome then .misuse else reason)

/-- The form of an argument. -/
def Form.ofArgument (argument : String) : Form :=
  match argument.toList with
  | ['-', '-'] => endOfOptions
  | '-' :: '-' :: cs =>
    let name := String.ofList (cs.takeWhile (· ≠ '='))
    match cs.dropWhile (· ≠ '=') with
    | [] => .ofName (longName? name) none true
    | _ :: value => .ofName (longName? name) (some (String.ofList value)) true
  | '-' :: c :: rest =>
    match rest with
    | [] => .ofName (shortName? c) none false
    | '=' :: value => .ofName (shortName? c) (some (String.ofList value)) false
    | value => .ofName (shortName? c) (some (String.ofList value)) false
  | _ => positional argument

/-- Whether an argument can be the value of the option before it. -/
def isValue (argument : String) : Bool :=
  match argument.toList with
  | '-' :: _ :: _ => false
  | _ => true

/-- Reads arguments from left to right. -/
def readFrom (p : Draft) : List String → Except Stop Draft
  | [] => .ok p
  | argument :: rest =>
    match Form.ofArgument argument with
    | .positional text => do readFrom (← p.positional text) rest
    | .stop reason => .error reason
    | .endOfOptions => rest.foldlM Draft.positional p
    | .setting s (some value) => do readFrom (← p.set s value) rest
    | .setting s none =>
      match rest with
      | [] => .error .misuse
      | value :: rest =>
        if isValue value then do readFrom (← p.set s value) rest else .error .misuse

/-- What the arguments ask for; a scene file has to be named. -/
def read (arguments : List String) : Except Stop Options := do
  let p ← readFrom {} arguments
  match p.scene with
  | none => throw .misuse
  | some scene =>
    return { scene
             output := p.output
             samplesPerPixel := p.samplesPerPixel
             threads := p.threads
             blockSize := p.blockSize.getD 64 }

/-- What went wrong in a run. -/
inductive Failure
  | load (path : String)
  | build (path : String)
  | save (path : String)
  /-- A file that a scene refers to ends the program. -/
  | halt (path : String)
  deriving Repr, DecidableEq, Inhabited

/-- The text of a failure. -/
def Failure.message : Failure → String
  | load path => s!"Error: Failed to load {path}"
  | build path => s!"Error: Failed to build scene {path}"
  | save path => s!"Error: Failed to save {path}"
  | halt path => s!"Error: Stopped in scene {path}"

/-- The exit code of a failure. -/
def Failure.exitCode : Failure → UInt8
  | halt _ => 101
  | _ => 1

/-- The job that options ask for. -/
def job (assets : Assets Float32) (options : Options) : Except Failure (Job Float32) :=
  match Description.load assets options.scene with
  | .error _ => .error (.load options.scene)
  | .ok (d, _) =>
    let d :=
      match options.samplesPerPixel with
      | none => d
      | some count => { d with sampler := d.sampler.withCount count }
    match (Job.ofDescription assets (Job.baseOf options.scene) d).1 with
    | .error e => .error (if e.halts then .halt options.scene else .build options.scene)
    | .ok job => .ok { job with output := options.output.getD job.output }

/-- The size of the buckets, at least one pixel. -/
def Options.bucketSize (options : Options) : UInt32 :=
  if options.blockSize = 0 then 1 else options.blockSize

/-- Renders the image of a scene and writes it to the files. -/
def render (options : Options) : ExceptT Failure (StateM FileTree) Unit := do
  let job ← MonadExcept.ofExcept (job (← get).assets options)
  ((job.image (Options.bucketSize options)).save job.output).adapt fun _ => .save job.output

/-- The exit code if nothing is rendered. -/
def Stop.exitCode : Stop → UInt8
  | help => 0
  | version => 0
  | misuse => 2

/-- How a run ends: the exit code, the message, and the files. -/
structure Outcome where
  exitCode : UInt8
  message : Option String
  files : FileTree
  deriving Inhabited

/-- Renders the scene that the arguments name. -/
def run (files : FileTree) (arguments : List String) : Outcome :=
  match read arguments with
  | .error stop => ⟨stop.exitCode, none, files⟩
  | .ok options =>
    match (render options).run files with
    | (.ok (), files) => ⟨0, none, files⟩
    | (.error failure, files) => ⟨failure.exitCode, some failure.message, files⟩

end CommandLine

end Radiance
