import Offload.Command.Run

/-!
# Entry point
-/

open Offload

def main (args : List String) : IO UInt32 := do
  let around : Command.Surroundings :=
    { pipeline := ← IO.getEnv "CINNAMON_PIPELINE"
      home := (← IO.getEnv "HOME").getD "/" }
  let (code, outcome) := Command.run around args
  outcome.printed.forM fun x => IO.print x.render
  outcome.messages.forM fun message => IO.eprintln message
  match outcome.written with
  | none => return code.toUInt32
  | some (path, text) =>
    try
      IO.FS.createDirAll (Text.directory path)
      IO.FS.writeFile path text
      return code.toUInt32
    catch e =>
      IO.eprintln e
      return Command.Exit.fault.code.toUInt32
