/-
Module: EvalCharts.Files.Tree
Purpose: Files and directories below a working directory, and how paths are followed in them. Nothing
  else exists: paths that lead elsewhere lead nowhere.
Main exports: Tree, Tree.resolve, Tree.read, Tree.createDirectory, Tree.write, Tree.disk
-/
import EvalCharts.Files.Disk
import EvalCharts.Files.Path

namespace EvalCharts

/-- What exists at some place. -/
inductive Node where
  | file (content : List UInt8)
  | directory
deriving DecidableEq, Repr

/-- Files and directories by their places, which are the names on the way from the working directory.
    The first entry of a place counts. -/
structure Tree where
  entries : List (List String × Node)
deriving DecidableEq, Repr

namespace Tree

/-- An empty working directory. -/
def empty : Tree := ⟨[]⟩

/-- What exists at a place. -/
def find? (tree : Tree) (place : List String) : Option Node :=
  if place = [] then some .directory else tree.entries.lookup place

/-- Let something exist at a place. -/
def put (tree : Tree) (place : List String) (node : Node) : Tree :=
  ⟨(place, node) :: tree.entries⟩

/-- The directory that a name leads to from a directory, or the place of an entry in it. -/
def next (place : List String) (name : String) : Except FileError (List String) :=
  if Path.isBlank name then .ok place
  else if name = ".." then
    if place = [] then .error .notFound else .ok place.dropLast
  else .ok (place ++ [name])

/-- Follow names from a place. A name can only be followed in a directory; that the last place exists
    is not asked for. -/
def walk (tree : Tree) (place : List String) : List String → Except FileError (List String)
  | [] => .ok place
  | name :: names =>
    match tree.find? place with
    | none => .error .notFound
    | some (.file _) => .error .notADirectory
    | some .directory =>
      match next place name with
      | .error error => .error error
      | .ok place => walk tree place names

/-- The place that a path leads to. A path that begins with a slash leads out of the working
    directory. -/
def resolve (tree : Tree) (path : String) : Except FileError (List String) :=
  if path = "" ∨ path.toList.head? = some '/' then .error .notFound
  else tree.walk [] (Path.names path)

/-- Read a file. A directory can be opened, but not be read. -/
def read (tree : Tree) (path : String) : Except FileError ByteStream := do
  match tree.find? (← tree.resolve path) with
  | none => .error .notFound
  | some (.file content) => .ok (.whole content)
  | some .directory => .ok (.broken [] FileError.isADirectory.message)

/-- Whether names lead to a directory. -/
def isDirectory (tree : Tree) (names : List String) : Bool :=
  match tree.walk [] names with
  | .ok place => tree.find? place == some .directory
  | .error _ => false

/-- Create a directory in one that exists. Its names are given from the last one on. -/
def addDirectory (tree : Tree) (reversed : List String) : Except FileError Tree :=
  match reversed.dropWhile (· == "") with
  | [] => .error .alreadyExists
  | name :: outer => do
    let parent ← tree.walk [] (outer.reverse ++ [""])
    let place ← next parent name
    if (tree.find? place).isSome then .error .alreadyExists else .ok (tree.put place .directory)

/-- Create a directory after its parent, unless it exists by then. -/
def addBehind (tree : Tree) (reversed : List String) : Except FileError Tree :=
  match tree.addDirectory reversed with
  | .ok tree => .ok tree
  | .error error => if tree.isDirectory reversed.reverse then .ok tree else .error error

/-- Create a directory; where its parent is missing, create the parent first. Blank names at the end of
    a parent are dropped. -/
def addDirectories (tree : Tree) : List String → Except FileError Tree
  | [] => .ok tree
  | name :: outer =>
    if Path.isBlank name then addDirectories tree outer
    else
      match tree.addBehind (name :: outer) with
      | .error .notFound => do
        let tree ← addDirectories tree outer
        tree.addBehind (name :: outer)
      | result => result

/-- Create a directory with the directories it stands in, as far as they do not exist. -/
def createDirectory (tree : Tree) (path : String) : Except FileError Tree :=
  let reversed := (Path.names path).reverse
  match tree.addBehind reversed with
  | .error .notFound => do
    let tree ← tree.addDirectories ((reversed.dropWhile Path.isBlank).drop 1)
    tree.addBehind reversed
  | result => result

/-- Create a file with a content, or replace its content. -/
def write (tree : Tree) (path : String) (content : List UInt8) : Except FileError Tree := do
  match (Path.names path).reverse with
  | [] => .error .notFound
  | name :: outer =>
    let parent ← tree.walk [] (outer.reverse ++ [""])
    let place ← next parent name
    if tree.find? place = some .directory then .error .isADirectory
    else .ok (tree.put place (.file content))

/-- Put something where a path leads, with the directories on its way. -/
def provide (tree : Tree) (path : String) (node : Node) : Tree :=
  let place := (Path.names path).filter fun name => !Path.isBlank name
  let outer := (List.range' 1 (place.length - 1)).map fun count => place.take count
  let missing := outer.filter fun place => (tree.find? place).isNone
  (missing.foldl (fun tree place => tree.put place .directory) tree).put place node

/-- Change the tree, if an operation on it succeeds. -/
def change (operation : Tree → Except FileError Tree) : ExceptT FileError (StateM Tree) Unit := do
  set (← ExceptT.mk (pure (operation (← get))))

/-- A tree as the file system of a program. -/
def disk : Disk (StateM Tree) where
  read path := do ExceptT.mk (pure ((← get).read path))
  createDirectory path := change fun tree => tree.createDirectory path
  write path content := change fun tree => tree.write path content.toUTF8.toList

end Tree

end EvalCharts
