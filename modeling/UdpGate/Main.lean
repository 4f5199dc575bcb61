import UdpGate.CommandLine.Reader
import UdpGate.Launch

/-!
# The program

Reads the command line, starts a run and tells why it did not start.  This build has no access to
kernel packet queues, so a run with valid settings ends where the first queue would be opened.
-/

namespace UdpGate

def usage : String :=
  "Chunk-streaming UDP allow-list filter on NFQUEUE\n\nUsage: phit-filter [OPTIONS]\n\nOptions:\n"
    ++ String.join (CliOption.all.map fun option =>
      (match option.letter? with
        | some letter => "  -" ++ String.singleton letter ++ ", --"
        | none => "      --") ++ option.name ++ "\n")

def Refusal.text : Refusal → String
  | .help => usage
  | .unknownArgument => "error: unexpected argument found\n"
  | .missingValue => "error: a value is required\n"
  | .badValue => "error: invalid value\n"
  | .repeated => "error: an option cannot be used multiple times\n"
  | .unexpectedValue => "error: unexpected value for an option\n"

/-- The exit code that tells of an aborted run. -/
def abortedCode : UInt8 := 134

end UdpGate

open UdpGate in
def main (arguments : List String) : IO UInt32 := do
  let outcome := startRun Request.ofArguments .withoutQueues arguments
  match outcome with
  | .refused .help => IO.print Refusal.help.text
  | .refused refusal => IO.eprint refusal.text
  | .failed failure => IO.eprint failure.report
  | .started _ _ => pure ()
  return (outcome.exitCode?.getD abortedCode).toUInt32
