import Std.Time.Format
import TypeAtlas.Command.Run

/-! # The program

Takes the files that an invocation can need into a volume, runs the invocation on it, and carries
the changes back to the disk. The clock of a run stands still, so a deadline that is not over at
once is kept.
-/

namespace TypeAtlas.Program

def pathOf (l : Location) : Path := ⟨.root, l⟩

/-- Takes what is on the disk at a location into the volume, with all that is below it. A link
comes with what it leads to. -/
partial def take (v : Volume) (l : Location) : IO Volume := do
  if (v.at? l).isSome && !l.isEmpty then return v
  let here := (pathOf l).toString
  let real ← try some <$> IO.FS.realPath here catch _ => pure none
  match real with
  | none => return v
  | some real =>
    let v ← (List.range l.length).foldlM (fun v n => above v (l.take n)) v
    if real.toString != here then
      let target := Path.ofString real.toString
      take { v with entries := v.entries.insert l (.link target) } target.segments
    else if ← real.isDir then
      let v := { v with entries := v.entries.insert l .directory }
      (← real.readDir).foldlM (fun v e => take v (l ++ [e.fileName])) v
    else
      let content ← IO.FS.readBinFile real
      return { v with entries := v.entries.insert l (.file content) }
where
  /-- A directory on the way. -/
  above (v : Volume) (l : Location) : IO Volume :=
    if (v.at? l).isSome then return v
    else return { v with entries := v.entries.insert l .directory }

def places (i : Invocation) : List String :=
  match i.operation with
  | .extract .. => [i.root]
  | .index c | .validate c | .verify c => i.root :: c.toList

/-- Makes the disk what the second volume says, where it was what the first one says. -/
def carry (old new : Volume) : IO Unit := do
  for (l, e) in old.entries.toList.reverse do
    if (new.at? l).isNone then
      match e with
      | .directory => IO.FS.removeDir (pathOf l).toString
      | _ => IO.FS.removeFile (pathOf l).toString
  for (l, e) in new.entries.toList do
    if old.at? l != some e then
      match e with
      | .directory => IO.FS.createDirAll (pathOf l).toString
      | .file content => IO.FS.writeBinFile (pathOf l).toString content
      | .link _ => pure ()

/-- The name of a run: eight random digits. -/
def newRun : IO String := do
  let bytes ← IO.getRandomBytes 4
  return String.ofList (bytes.toList.flatMap fun b => Text.hexPadded 2 b.toNat)

def timeText : IO String := do
  try return (← Std.Time.PlainDateTime.now).format "uuuu-MM-dd HH:mm:ss"
  catch _ => return "-"

def usage : String :=
  "usage: typeir [--log-level LEVEL] [--format pretty|json] OPERATION\n\n" ++
  "  extract FILE SYMBOL [--root ROOT] [--no-cache] [--timeout SECONDS]\n" ++
  "  index [ROOT] [--cache-dir DIR]\n" ++
  "  validate [ROOT] [--cache-dir DIR]\n" ++
  "  verify [ROOT] [--cache-dir DIR]\n"

def perform (i : Invocation) : IO UInt32 := do
  let working := Path.ofString (← IO.currentDir).toString
  let e : Surroundings := {
    digester := .standard
    home := Path.ofString ((← IO.getEnv "HOME").getD "/")
    time := ← timeText
    run := ← newRun }
  let start : Volume := { workingDirectory := working.segments }
  let volume ← (places i).foldlM (fun v s => take v (Command.path e v s).segments) start
  let (result, w) := (i.run e).run.run { volume }
  carry volume w.volume
  match result with
  | .ok r =>
    IO.eprint r.messages
    IO.print r.output
    return r.exit.toUInt32
  | .error f =>
    IO.eprintln ("error: " ++ f.message.getD "the operation failed")
    return 1

end TypeAtlas.Program

open TypeAtlas in
def main (args : List String) : IO UInt32 := do
  match Invocation.read args with
  | .ok i => Program.perform i
  | .error .help =>
    IO.print Program.usage
    return 0
  | .error .misuse =>
    IO.eprint Program.usage
    return 2
