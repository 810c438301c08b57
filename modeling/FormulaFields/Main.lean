import FormulaFields.CommandLine.Session

/-!
The program itself: it fetches arguments, variables and files, and prints what the run leaves.
-/
namespace FormulaFields.CommandLine

def readPath (path : String) : IO (Except ReadError String) := do
  try
    return textOfBytes (← IO.FS.readBinFile path)
  catch
    | .noFileOrDirectory .. => return .error .missing
    | .inappropriateType _ 20 _ => return .error .notDirectory
    | .inappropriateType _ 21 _ => return .error .directory
    | .invalidArgument _ 36 _ => return .error .nameTooLong
    | .permissionDenied _ code details =>
      return .error (.other (details ++ " (os error " ++ toString code ++ ")"))
    | e => return .error (.other (toString e))

/-- The contents of the paths that an invocation names. -/
def readPaths (i : Invocation) : IO Files := do
  let paths := PathOption.all.filterMap i.path?
  let contents ← paths.mapM fun path => do return (path, ← readPath path)
  return fun path => (contents.lookup path).getD (.error .missing)

def readEnvironment : IO Environment := do
  let operators ← IO.getEnv PathOption.operators.environmentName
  let alphas ← IO.getEnv PathOption.alphas.environmentName
  let config ← IO.getEnv PathOption.config.environmentName
  let path? : PathOption → Option String
    | .operators => operators
    | .alphas => alphas
    | .config => config
  return { path?, depthLimit := ← IO.getEnv depthLimitName }

def perform (arguments : List String) : IO UInt32 := do
  let env ← readEnvironment
  let files ← match Invocation.ofArguments env arguments with
    | .ok invocation => readPaths invocation
    | .error _ => pure fun _ => .error .missing
  let outcome := run files env arguments
  for warning in outcome.warnings do
    (← IO.getStderr).putStrLn ("WARN " ++ warning.message)
  (← IO.getStdout).putStr outcome.stdout
  (← IO.getStderr).putStr outcome.stderr
  return outcome.code

end FormulaFields.CommandLine

def main (arguments : List String) : IO UInt32 := FormulaFields.CommandLine.perform arguments
