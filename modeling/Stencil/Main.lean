import Stencil.Changes
import Stencil.CommandLine
import Stencil.Config
import Stencil.MemoryInfo
import Stencil.Server
import Stencil.Source.FileTree

namespace Stencil.Main

/-- The file of the configuration, if none is given. -/
def configFile : String := "stencil.toml"

def memoryReport : String := "/proc/meminfo"

def wordSupply : Nat := 65536

/-- A file, a link or a directory as it is on the disk. -/
partial def readNode (path : String) : IO FileNode := do
  let place ← IO.FS.realPath path
  let mut entries : List (Text × FileNode) := []
  for entry in ← place.readDir do
    let name := entry.fileName.toList
    let inner := toString entry.path
    try
      match (← entry.path.symlinkMetadata).type with
      | .dir => entries := entries ++ [(name, ← readNode inner)]
      | .symlink =>
        entries := entries ++ [(name, .link (toString (← IO.FS.realPath inner)).toList)]
      | _ => entries := entries ++ [(name, .file (← IO.FS.readBinFile inner).toList)]
    catch _ => pure ()
  return .directory entries

def wrap (names : List Text) (node : FileNode) : FileNode :=
  names.foldr (fun name node => .directory [(name, node)]) node

def namesOf (path : String) : List Text :=
  (Text.splitOn ['/'] path.toList).filter fun n => !n.isEmpty

/-- The directory of the templates as it is on the disk; nothing if it cannot be read. -/
def readRoot (root : Text) : IO FileNode :=
  if root.isEmpty then return .directory []
  else
    try readNode (String.ofList root)
    catch _ => return .directory []

/-- The tree of files with the directory of the templates in it. -/
def treeOf (root : Text) (node : FileNode) : IO FileTree := do
  let start := namesOf (toString (← IO.currentDir))
  if root.isEmpty then return ⟨.directory [], start⟩
  try
    let place := namesOf (toString (← IO.FS.realPath (String.ofList root)))
    return ⟨wrap place node, start⟩
  catch _ => return ⟨.directory [], start⟩

def readWords : IO (List UInt32) := do
  let bytes ← IO.getRandomBytes (4 * wordSupply).toUSize
  return (List.range wordSupply).map fun i =>
    (List.range 4).foldl (fun w j => 256 * w + ((bytes[4 * i + j]?).getD 0).toUInt32) 0

/-- A server, the directory of its templates as it was last read, and the time then. -/
structure State where
  server : Server
  root : Text
  node : FileNode
  time : Nat

/-- Reads the templates, takes what has changed out of the cache, and moves its clock on. -/
def refresh (s : State) : IO State := do
  let options := s.server.engine.options
  let node ← readRoot options.root
  let tree ← treeOf options.root node
  let time ← IO.monoMsNow
  let words ← if s.server.world.words.length < wordSupply then readWords else
    pure s.server.world.words
  let engine := { s.server.engine with sources := tree.resolve }
  let changed := if s.root = options.root then FileNode.changed options.root s.node node else []
  let cache := (Changes.templates changed options.root options.ext).foldl
    (fun c path => engine.invalidate path c)
    (s.server.world.source.modify (·.advance (time - s.time)))
  return ⟨⟨engine, ⟨cache, words⟩⟩, options.root, node, time⟩

/-- Waits until there is memory. -/
partial def awaitMemory (floorMb : Nat) : IO Unit := do
  if floorMb = 0 then return
  let isShort ← try
      pure (MemoryInfo.isShort floorMb (← IO.FS.readFile memoryReport).toList)
    catch _ => pure false
  if isShort then
    IO.sleep 1
    awaitMemory floorMb

/-- Answers the lines of the standard input. -/
partial def serve (floorMb : Nat) (s : State) : IO Unit := do
  let line ← (← IO.getStdin).getLine
  if line.isEmpty then return
  match Command.ofLine? line.toList with
  | none => serve floorMb s
  | some .stop => return
  | some command =>
    if command.id?.isSome then awaitMemory floorMb
    let s ← refresh s
    let (out, server) := s.server.answer command
    let output ← IO.getStdout
    for answer in out do
      output.putStrLn (String.ofList answer)
      output.flush
    serve floorMb { s with server }

/-- The configuration in a file, which must be there if it was asked for. -/
def readConfig (file : Option Text) : IO (Except String Config) := do
  let name := (file.map String.ofList).getD configFile
  let text? : Option String ← try pure (some (← IO.FS.readFile name)) catch _ => pure none
  match text? with
  | some text =>
    return (Config.ofText? text.toList).elim (.error ("Invalid configuration: " ++ name)) .ok
  | none => return if file.isSome then .error ("Failed to read " ++ name) else .ok .default

/-- The slots of the largest table of templates: of 2⁵⁸ places for a pair of pointers, one of eight
stays empty. -/
def slots : Nat := 252201579132747776

/-- A server with the options of its configuration and of the command line. -/
def start (c : CommandLine) (config : Config) : Server :=
  let server : Server :=
    ⟨.ofSources 256 fun _ _ => .error .missingRoot, ⟨.ofCapacity config.engine.capacity, []⟩⟩
  let local? := if c.debug then [("assets".toList, Options.localAssets)] else []
  let root := (c.root.map fun r => ("root".toList, r)).toList
  (local? ++ config.engine.options ++ root).foldl (fun s e => s.setOption e.1 e.2) server

end Stencil.Main

open Stencil in
/-- Answers the commands on its standard input, one a line. The templates are the files under the
directory that the options name; they are read before every command, and what has changed among them
is taken out of the cache. -/
def main (args : List String) : IO UInt32 := do
  match CommandLine.ofArgs? (args.map String.toList) with
  | none =>
    (← IO.getStderr).putStrLn (String.ofList CommandLine.usage)
    return 2
  | some c =>
    match ← Main.readConfig c.config with
    | .error message =>
      (← IO.getStderr).putStrLn message
      return 1
    | .ok config =>
      if !MemoryCache.canHold Main.slots config.engine.capacity then
        (← IO.getStderr).putStrLn "Hash table capacity overflow"
        return 101
      let server := Main.start c config
      Main.serve config.server.memoryFloorMb ⟨server, [], .directory [], ← IO.monoMsNow⟩
      return 0
