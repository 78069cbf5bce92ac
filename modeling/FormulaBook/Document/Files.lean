import FormulaBook.Document.Reader

/-!
# Collections of files

A set of files by their places below the root, with the directory that relative paths start from.
Every place in front of a file is a directory, and so are the working directory, those it lies in
and what every system has below its root. A directory may be closed: the system then refuses to
look for anything in it. There are no links, and a file can be read by everyone.
-/

namespace FormulaBook

/-- Files with their contents. All places are given by their components below the root. -/
structure Files where
  /-- The working directory. -/
  directory : List String
  entries : List (List String × ByteArray)
  /-- The directories that nothing may be looked for in. -/
  closed : List (List String) := []

namespace Files

/-- The working directory where none is named: one below the directory for temporary files. -/
def defaultDirectory : List String := ["tmp", "formulas"]

/-- The files under the paths with the given spellings; of several under one path the last one. -/
def ofList (l : List (String × ByteArray)) (directory : List String := defaultDirectory) :
    Files where
  directory
  entries := (l.map fun e =>
    let p := Path.ofString e.1
    (if p.root = "" then directory ++ p.components else p.components, e.2)).reverse

/-- The directories that every system has below its root. -/
def systemDirectories : List String :=
  ["bin", "boot", "dev", "etc", "home", "lib", "media", "mnt", "opt", "proc", "root", "run", "sbin",
    "srv", "sys", "tmp", "usr", "var"]

/-- The device without content, which every system has below its root. -/
def nullDevice : List String := ["dev", "null"]

/-- The content of the file at a place. -/
def content? (f : Files) (place : List String) : Option ByteArray :=
  if place = nullDevice then some .empty else f.entries.lookup place

/-- Whether a place is a directory. -/
def isDirectory (f : Files) (place : List String) : Bool :=
  place.isPrefixOf f.directory || (systemDirectories.any fun name => place == [name]) ||
    f.entries.any fun e => place.isPrefixOf e.1 && place != e.1

/-- Where components lead to. -/
inductive Destination where
  | place (components : List String)
  /-- Nowhere: something on the way is no directory. -/
  | nowhere
  /-- Past something that the system refuses to look for. -/
  | refused (e : SystemError)
deriving DecidableEq

/-- Where one more component leads to. Above the root is the root. -/
def step (f : Files) (d : Destination) (c : String) : Destination :=
  match d with
  | .place here =>
    if !f.isDirectory here then .nowhere
    else if here ∈ f.closed then .refused .accessDenied
    else if c = ".." then .place here.dropLast
    else if Path.isLongComponent c then .refused .nameTooLong
    else .place (here ++ [c])
  | d => d

/-- Where a path leads to. -/
def destination (f : Files) (p : Path) : Destination :=
  p.components.foldl f.step (.place (if p.root = "" then f.directory else []))

/-- What is found at a destination. -/
def lookUp (f : Files) : Destination → Source
  | .place here =>
    match f.content? here with
    | some bytes => .bytes bytes
    | none => if f.isDirectory here then .unreadable else .absent
  | .nowhere => .absent
  | .refused e => .refused e

/-- What is found under a path; nothing if the character with the code zero is in it. -/
def source (f : Files) (p : Path) : Source :=
  if p.text.toList.contains '\x00' then .absent
  else if p.isLong then .refused .nameTooLong
  else f.lookUp (f.destination p)

/-- Whether there is a file or directory under a path. -/
def contains (f : Files) (p : Path) : Bool :=
  match f.source p with
  | .absent | .refused _ => false
  | _ => true

end Files

end FormulaBook
