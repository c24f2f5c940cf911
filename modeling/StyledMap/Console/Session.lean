import StyledMap.Console.Commands
import StyledMap.Files.Tree

/-! A run of the program on values: a tree of files, and the text that has been printed. -/
namespace StyledMap.Console

structure Session where
  tree : Files.Tree
  printed : String

namespace Session

/-- An access to the tree, as one to the session around it. -/
def onTree {α : Type} (act : StateM Files.Tree α) : StateM Session α := fun s =>
  match act s.tree with
  | (a, t) => (a, ⟨t, s.printed⟩)

def files : Files.Access (StateM Session) where
  isThere p := onTree (Files.treeAccess.isThere p)
  isDirectory p := onTree (Files.treeAccess.isDirectory p)
  read p := onTree (Files.treeAccess.read p)
  write p bytes := onTree (Files.treeAccess.write p bytes)
  append p bytes := onTree (Files.treeAccess.append p bytes)
  makeDirectory p := onTree (Files.treeAccess.makeDirectory p)

def world (library : String → Render.Library) (home : Option Path) : World (StateM Session) where
  files := files
  print text := modify (fun s => ⟨s.tree, s.printed ++ text⟩)
  library := library
  home := home

end Session

/-- What a run on a tree prints, writes and ends with. -/
def runOn (tree : Files.Tree) (library : String → Render.Library) (home : Option Path)
    (arguments : List String) : Ending × Session :=
  (run (Session.world library home) arguments).run ⟨tree, ""⟩

end StyledMap.Console
