import LetPrint.CommandLine

/-! # The program

Reads the file that the arguments name, writes the answer to standard output and the log to standard
error.
-/
namespace LetPrint

namespace CommandLine

def contentsOf (file : String) : IO (Except ReadFailure ByteArray) := do
  try
    return .ok (← IO.FS.readBinFile file)
  catch failure =>
    match failure with
    | .noFileOrDirectory .. => return .error .missing
    | .inappropriateType .. => return .error .directory
    | failure => return .error (.other (toString failure))

def respond (request : Request) : IO UInt32 := do
  let (filter, contents) ← match request with
    | .perform _ file filter => pure (filter, ← contentsOf file)
    | _ => pure (LogFilter.off, .error .missing)
  let answer := request.answer fun _ => contents
  for event in answer.log do
    if filter.admits event then IO.eprintln ("[" ++ event.level.name ++ "] " ++ event.message)
  if request = .misuse then IO.eprintln "usage: zed [--log-level LEVEL] (run | lex) FILE"
  let out ← IO.getStdout
  out.write ⟨answer.value.written.toArray⟩
  out.flush
  return answer.value.exit.toUInt32

end CommandLine

end LetPrint

/-- Runs the task that the arguments ask for. -/
def main (arguments : List String) : IO UInt32 := do
  let ambient ← IO.getEnv "ZED_LOG"
  LetPrint.CommandLine.respond (.ofArguments ambient arguments)
