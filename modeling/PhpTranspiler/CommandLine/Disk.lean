import PhpTranspiler.CommandLine.Run

namespace PhpTranspiler.CommandLine

/-- Files in memory. The directories are those that hold a file, and the one that all paths start
from. -/
structure Disk where
  files : List (List String × ByteArray)
  trees : List (List String × Node)

namespace Disk

/-- The names along a path. A dot names the directory itself, two dots name the one above. -/
def components (path : String) : List String :=
  ((path.splitOn "/").foldl (fun above name =>
    if name = "" ∨ name = "." then above
    else if name = ".." then above.tail
    else name :: above) []).reverse

def name (path : List String) : String := "/".intercalate path

def file? (d : Disk) (path : List String) : Option ByteArray := d.files.lookup path

def isDirectory (d : Disk) (path : List String) : Bool :=
  path.isEmpty || d.files.any fun f => path.length < f.1.length && path.isPrefixOf f.1

def fault (d : Disk) (path : List String) : FileFault :=
  if d.isDirectory path then .directory
  else if d.files.any fun f => f.1.isPrefixOf path then .notDirectory
  else .missing

def read (d : Disk) (path : String) : Except FileFault String :=
  let place := components path
  match d.file? place with
  | none => .error (d.fault place)
  | some bytes =>
    if path.endsWith "/" then .error .notDirectory
    else match String.fromUTF8? bytes with
      | some text => .ok text
      | none => .error .encoding

def write (d : Disk) (path text : String) : Except FileFault Disk :=
  let place := components path
  if d.isDirectory place then .error .directory
  else if (d.file? place).isSome then
    .ok { d with files := d.files.map fun f => if f.1 = place then (place, text.toUTF8) else f }
  else if d.isDirectory place.dropLast then
    .ok { d with files := d.files ++ [(place, text.toUTF8)] }
  else .error (d.fault place.dropLast)

def workspace : Workspace (StateM Disk) where
  read path := return (← get).read path
  write path text := do
    match (← get).write path text with
    | .ok d => set d; return .ok ()
    | .error fault => return .error fault
  tree path := return (← get).trees.lookup (components path)

def changes (before after : Disk) : List (String × ByteArray) :=
  after.files.filterMap fun (path, bytes) =>
    match before.file? path with
    | some old => if old.toList = bytes.toList then none else some (name path, bytes)
    | none => some (name path, bytes)

end Disk

end PhpTranspiler.CommandLine
