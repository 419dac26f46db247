import DelayedJobs.Command.Execute
import DelayedJobs.Command.Options
import DelayedJobs.Table.Wire
import Std.Time.DateTime.Timestamp

/-!
The program. It reaches its database through standard output and input: each statement goes out as
a line of JSON and its reply comes in as one. When no more replies come it counts as interrupted.
What it has to say to a user goes to standard error.
-/

open DelayedJobs

def machineNow : IO Instant := do
  let time ← Std.Time.Timestamp.now
  return .nearest time.toNanosecondsSinceUnixEpoch.val

def drawIdentifiers : IO (Nat → Uuid) := do
  let bytes ← IO.getRandomBytes 16
  let seed := bytes.foldl (fun n b => 256 * n + b.toNat) 0
  return fun i =>
    let n := (seed + i * 0x9e3779b97f4a7c15) % Word.count128
    let low := n % 0x4000000000000000
    let middle := n / Word.count64 % 0x1000
    let high := n / 0x100000000000000000000
    .ofNat (high * 0x100000000000000000000 + (0x4000 + middle) * Word.count64 + Word.count63 + low)

def environment : IO (String → Option String) := do
  let options := Command.program.shared ++ Command.program.commands.flatMap fun c => c.options
  let values ← (options.filterMap fun o => o.envName).mapM fun name => do
    return (← IO.getEnv name).map fun value => (name, value)
  return fun name => (values.filterMap id).lookup name

def machine (settings : TableSettings) : IO (Surroundings IO) := do
  let input ← IO.getStdin
  let output ← IO.getStdout
  let ended ← IO.mkRef false
  return {
    serve := fun statement => do
      output.putStrLn (statement.toJson settings).print
      output.flush
      let line ← input.getLine
      if line.isEmpty then
        ended.set true
        return .failed (.other "no reply")
      return .ofLine line
    now := ← machineNow
    draw := ← drawIdentifiers
    wait := fun d => IO.sleep (.ofNat (min d.millis (Word.count32 - 1)))
    interrupted := ended.get
    patience := Word.count32 }

def complain (lines : List String) : IO Unit := do
  for line in lines do
    IO.eprintln line

def main (args : List String) : IO UInt32 := do
  match Command.parse ("lapse" :: args) (← environment) with
  | .error e =>
    complain ["error: " ++ e.message]
    return 2
  | .ok (command, choice) =>
    match choice.settings with
    | .error fault =>
      complain ["Error: " ++ fault.message]
      return 1
    | .ok settings =>
      match (← command.execute (← machine settings) settings).outcome with
      | .ok lines =>
        complain lines
        return 0
      | .error e =>
        complain ["Error: " ++ ": ".intercalate e.chain]
        return 1
