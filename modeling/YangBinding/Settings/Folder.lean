import YangBinding.Error
import YangBinding.Text.Split

/-!
# Folders

The place where settings and models are looked up: text files by their paths. A path is followed
name by name, and every name but the last has to be that of a directory. Empty names and single
points say nothing, two points lead back, and a slash in front tells a path from those that start in
the folder.

## Main definitions

* `Folder`, `Folder.ofFiles`: text files by path
* `Folder.place?`: where a path leads
* `Folder.read?`: the text of a file
* `Folder.write`: a folder with one more file

Main statement: `Folder.read?_write`, what was written can be read.
-/

namespace YangBinding

/-- The names that a path goes through, behind a slash if the path starts with one. -/
def pathSteps (path : String) : List String :=
  let names := (Text.pieces '/' path).filter fun name => name != "" && name != "."
  if path.toList.head? = some '/' then "/" :: names else names

/-- The path can only be that of a directory. -/
def endsInDirectory (path : String) : Bool :=
  ((Text.pieces '/' path).getLast?).all fun name => name == "" || name == "." || name == ".."

/-- Text files by path, and directories that are there even without a file in them. -/
structure Folder where
  files : List (List String × String) := []
  directories : List (List String) := []
  deriving DecidableEq, Repr

namespace Folder

/-- There is a directory at a place: the folder itself is one, and all that a file lies in. -/
def hasDirectory (folder : Folder) (place : List String) : Bool :=
  place.isEmpty || folder.directories.contains place ||
    folder.files.any fun file => place.isPrefixOf file.1.dropLast

/-- The place one name on. Two points lead back to where the last name was taken. -/
def step (here : List String) (name : String) : List String :=
  if name != ".." || here.isEmpty || here.getLast? == some ".." then here ++ [name]
  else if here == ["/"] then here
  else here.dropLast

/-- The place at the end of some names. -/
def walk (folder : Folder) (here : List String) : List String → Option (List String)
  | [] => some here
  | name :: names =>
    if folder.hasDirectory here then walk folder (step here name) names else none

/-- The directories that a path goes through, where all its names can be followed. -/
def passed (here : List String) : List String → List (List String)
  | [] => []
  | name :: names => here :: passed (step here name) names

/-- The folder of some files, with the directories that their paths go through. Of two files at one
place the later counts. -/
def ofFiles (files : List (String × String)) : Folder where
  files := files.reverse.map fun (path, text) => ((pathSteps path).foldl step [], text)
  directories := files.flatMap fun (path, _) => passed [] (pathSteps path)

/-- The place of the file that a path leads to. -/
def place? (folder : Folder) (path : String) : Option (List String) :=
  if endsInDirectory path then none else folder.walk [] (pathSteps path)

/-- The text of a file. -/
def read? (folder : Folder) (path : String) : Option String :=
  (folder.place? path).bind fun place => folder.files.lookup place

/-- The folder with the text of a file replaced, or with one more file. A file can be written only
into a directory that is there, and not in place of a directory. -/
def write (folder : Folder) (path text : String) : Result Folder :=
  match folder.place? path with
  | some place =>
    if folder.hasDirectory place then .error .io
    else .ok { folder with
      files := (place, text) :: folder.files.filter fun file => file.1 != place }
  | none => .error .io

/-! ## Reading what was written -/

theorem hasDirectory_of_replace {folder : Folder} {place here : List String} (text : String)
    (h : folder.hasDirectory here = true) :
    hasDirectory { folder with
      files := (place, text) :: folder.files.filter fun file => file.1 != place } here = true := by
  simp only [hasDirectory, Bool.or_eq_true, List.any_cons, List.any_eq_true, List.mem_filter]
    at h ⊢
  rcases h with h | ⟨file, hf, hp⟩
  · exact Or.inl h
  · by_cases e : file.1 = place
    · exact Or.inr (Or.inl (e ▸ hp))
    · exact Or.inr (Or.inr ⟨file, ⟨hf, by simpa using e⟩, hp⟩)

theorem walk_of_replace {folder : Folder} {place goal : List String} (text : String)
    {here names : List String} (h : folder.walk here names = some goal) :
    walk { folder with
      files := (place, text) :: folder.files.filter fun file => file.1 != place } here names =
        some goal := by
  induction names generalizing here with
  | nil => exact h
  | cons name names ih =>
    simp only [walk] at h ⊢
    split at h
    · next hd => rw [if_pos (hasDirectory_of_replace text hd), ih h]
    · cases h

/-- What was written can be read. -/
theorem read?_write {folder folder' : Folder} {path text : String}
    (h : folder.write path text = .ok folder') : folder'.read? path = some text := by
  simp only [write] at h
  split at h
  · next place hp =>
    split at h
    · cases h
    · cases h
      have hs : place? { folder with
          files := (place, text) :: folder.files.filter fun file => file.1 != place } path =
            some place := by
        simp only [place?] at hp ⊢
        split at hp
        · cases hp
        · next hn => rw [if_neg hn, walk_of_replace text hp]
      simp [read?, hs]
  · cases h

end Folder

/-! ## Names of files -/

/-- What follows the last point of a file's name. A point in front starts no ending. -/
def ending? (path : String) : Option String :=
  match ((pathSteps path).getLast?).map (Text.pieces '.') with
  | some ("" :: [_]) | some [_] | none => none
  | some parts => parts.getLast?

/-- A path with an ending behind its last name. A path that ends with two points, or has no name at
all, has no last name. -/
def withEnding? (path ending : String) : Option String :=
  let names := (Text.pieces '/' path).reverse.dropWhile fun name => name == "" || name == "."
  match names with
  | [] | ".." :: _ => none
  | names => some ("/".intercalate names.reverse ++ "." ++ ending)

end YangBinding
