import CodonGrammar.CommandLine.File

/-!
# Folders of files

A path leads from a folder through its parts, one after the other, each of which is looked up in the
folder that the parts before it have led to. A part may also stay in a folder or go up to the one
above. Of the folders above and beside the given one nothing is known but that there is one above
each, and of the whole system only its usual folders and the device that is always empty.
-/

namespace CodonGrammar.CommandLine

/-- The files of a folder by their paths from there, with slashes between the parts. -/
structure Folder where
  files : List (String × List UInt8)

/-- Where a path may lead. -/
inductive Place where
  | file (content : List UInt8)
  /-- A folder inside of the given one, or that folder itself. -/
  | inside (parts : List (List Char))
  /-- A folder above the given one. -/
  | above
  /-- A folder by its path from the top of the system. -/
  | system (parts : List (List Char))

def systemFolders : List String :=
  ["bin", "boot", "dev", "dev/pts", "dev/shm", "etc", "home", "lib", "media", "mnt", "opt", "proc",
    "root", "run", "sbin", "srv", "sys", "tmp", "usr", "usr/bin", "usr/lib", "usr/local",
    "usr/sbin", "usr/share", "var", "var/lib", "var/log", "var/tmp"]

def emptyDevice : String := "dev/null"

/-- The largest number of bytes in a part of a path. -/
def maxPartBytes : Nat := 255

def maxPathBytes : Nat := 4095

def byteCount (text : List Char) : Nat := (String.ofList text).utf8ByteSize

def joinParts (parts : List (List Char)) : String := String.ofList (['/'].intercalate parts)

/-- A place at the top of the system, by its parts. -/
def systemPlace (parts : List (List Char)) : Except FileError Place :=
  if joinParts parts = emptyDevice then .ok (.file [])
  else if joinParts parts ∈ systemFolders then .ok (.system parts)
  else .error .missing

namespace Folder

def hasFolder (folder : Folder) (path : String) : Bool :=
  folder.files.any fun (name, _) => name.startsWith (path ++ "/")

/-- The place with the given parts inside of a folder. -/
def insidePlace (folder : Folder) (parts : List (List Char)) : Except FileError Place :=
  match folder.files.lookup (joinParts parts) with
  | some content => .ok (.file content)
  | none => if folder.hasFolder (joinParts parts) then .ok (.inside parts) else .error .missing

/-- The place that a part of a path leads to from a place. -/
def step (folder : Folder) (place : Place) (part : List Char) : Except FileError Place :=
  match place with
  | .file _ => .error .notAFolder
  | .inside parts =>
    if part = [] ∨ part = ['.'] then .ok place
    else if part = ['.', '.'] then .ok (if parts.isEmpty then .above else .inside parts.dropLast)
    else if maxPartBytes < byteCount part then .error .nameTooLong
    else folder.insidePlace (parts ++ [part])
  | .above =>
    if part = [] ∨ part = ['.'] ∨ part = ['.', '.'] then .ok place
    else if maxPartBytes < byteCount part then .error .nameTooLong
    else .error .missing
  | .system parts =>
    if part = [] ∨ part = ['.'] then .ok place
    else if part = ['.', '.'] then .ok (.system parts.dropLast)
    else if maxPartBytes < byteCount part then .error .nameTooLong
    else systemPlace (parts ++ [part])

/-- The place that the parts of a path lead to from a place. -/
def walk (folder : Folder) (place : Place) : List (List Char) → Except FileError Place
  | [] => .ok place
  | part :: rest =>
    match folder.step place part with
    | .error error => .error error
    | .ok next => folder.walk next rest

def content (folder : Folder) (path : String) : Except FileError (List UInt8) :=
  let start := if path.startsWith "/" then Place.system [] else Place.inside []
  if maxPathBytes < path.utf8ByteSize then .error .nameTooLong
  else
    match folder.walk start (Text.splitAtEach '/' path.toList) with
    | .error error => .error error
    | .ok (.file content) => .ok content
    | .ok _ => .error .folder

/-- The name of the file that a path stands for if its parts are put together before any is looked
up. There is none if the path leads out of the folder, or to another one inside of it. -/
def ownName? (path : String) : Option String :=
  if path.startsWith "/" then none
  else
    match (pathParts path.toList).foldlM (fun (kept : List (List Char)) part =>
        if part = ['.', '.'] then kept.tail? else some (part :: kept)) [] with
    | some [name] => if byteCount name ≤ maxPartBytes then some (String.ofList name) else none
    | _ => none

/-- The name of the file that comes into being when something is written to a path. -/
def newFile? (folder : Folder) (path : String) : Option String :=
  match ownName? path with
  | none => none
  | some name =>
    if (folder.files.lookup name).isSome || folder.hasFolder name then none else some name

/-- The folder after something was written to the end of the file at a path. -/
def append (folder : Folder) (path : String) (added : List UInt8) : Folder :=
  match ownName? path with
  | none => folder
  | some name =>
    if folder.hasFolder name then folder
    else ⟨(name, (folder.files.lookup name).getD [] ++ added) :: folder.files⟩

end Folder

end CodonGrammar.CommandLine
