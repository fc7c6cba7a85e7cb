import Mathlib

/-!
# `installd/utils.cpp`

The checks of paths that come from the framework.  A C string is the list of its characters.
-/

namespace ShieldTv.Installd

/-- `dir_rec_t`, as `get_path_from_string` and `copy_and_append` leave it: an absolute path that
ends in a slash. -/
structure DirRec where
  path : List Char
  absolute : path.head? = some '/'
  slash : path.getLast? = some '/'

def DirRec.len (dir : DirRec) : Nat := dir.path.length

/-- The directories that are set up when `installd` starts. -/
structure Dirs where
  androidAppDir : DirRec
  androidAppPrivateDir : DirRec
  androidAsecDir : DirRec
  androidMntExpandDir : DirRec
  androidSystemDirs : List DirRec

def strchr (s : List Char) (c : Char) : Option (List Char) :=
  match s.dropWhile (· ≠ c) with
  | [] => none
  | found :: rest => some (found :: rest)

/-- `!strncmp(path, dir->path, dir->len)`. -/
def DirRec.startsPath (dir : DirRec) (path : List Char) : Bool := dir.path.isPrefixOf path

def validatePath (dir : DirRec) (path : List Char) (maxSubdirs : Int) : Int :=
  let subdir := (strchr (path.drop dir.len) '/').map List.tail
  if subdir.isSome ∧ maxSubdirs - 1 = 0 ∧ (subdir.bind (strchr · '/')).isSome then -1
  else if (path.drop dir.len).head? = some '.' ∨ (subdir.bind List.head?) = some '.' then -1
  else 0

/-- The first system directory that the path starts with. -/
def systemDir (dirs : Dirs) (path : List Char) : Option (DirRec × Int) :=
  (dirs.androidSystemDirs.find? (·.startsPath path)).map fun dir => (dir, 1)

/-- The directory that the path starts with, and how deep it may go. -/
def apkDir (dirs : Dirs) (path : List Char) (maxSubdirs : Int) : Option (DirRec × Int) :=
  if dirs.androidAppDir.startsPath path then some (dirs.androidAppDir, maxSubdirs)
  else if dirs.androidAppPrivateDir.startsPath path then
    some (dirs.androidAppPrivateDir, maxSubdirs)
  else if dirs.androidAsecDir.startsPath path then some (dirs.androidAsecDir, maxSubdirs)
  else if dirs.androidMntExpandDir.startsPath path then
    some (dirs.androidMntExpandDir, if maxSubdirs < 2 then 2 else maxSubdirs)
  else none

def validateIn (found : Option (DirRec × Int)) (path : List Char) : Int :=
  match found with
  | none => -1
  | some (dir, maxSubdirs) => validatePath dir path maxSubdirs

def validateSystemAppPath (dirs : Dirs) (path : List Char) : Int :=
  validateIn (systemDir dirs path) path

def validateApkPathInternal (dirs : Dirs) (path : List Char) (maxSubdirs : Int) : Int :=
  validateIn (apkDir dirs path maxSubdirs) path

def validateApkPath (dirs : Dirs) (path : List Char) : Int := validateApkPathInternal dirs path 1

def validateApkPathSubdirs (dirs : Dirs) (path : List Char) : Int :=
  validateApkPathInternal dirs path 3

end ShieldTv.Installd
