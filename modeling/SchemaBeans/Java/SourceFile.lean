import SchemaBeans.Java.Declaration
import SchemaBeans.Path
/-!
Source files. Every top-level type has one, with its package, its imports in order and its
declaration; it stands in the directory of its package.
-/

namespace SchemaBeans.Java

structure SourceFile where
  path : String
  name : String
  contents : String
  deriving DecidableEq, Repr

/-- The path of a type's file: a directory for each part of the package. -/
def sourcePath (package name : String) : String :=
  let parts := ((Text.pieces '.' package.toList).filter (!·.isEmpty)).map String.ofList
  Path.join (parts.foldl Path.join "") (name ++ ".java")

def sortedImports (names : List String) : List String :=
  (names.eraseDups).mergeSort fun a b => decide (a ≤ b)

def textOf (lines : Lines) : String := "".intercalate (lines.map (· ++ "\n"))

def contents (package : String) (imports : List String) (declaration : Lines) : String :=
  let packageLines := if package.isEmpty then [] else ["package " ++ package ++ ";", ""]
  let importLines :=
    if imports.isEmpty then [] else imports.map ("import " ++ · ++ ";") ++ [""]
  textOf (packageLines ++ importLines ++ declaration)

def sourceFile (settings : Settings) (g : TypeGraph) (decorations : Decorations) (id : TypeId) :
    SourceFile :=
  let decl := g.get id
  let sheet : Sheet := ⟨g, decorations, settings, decl.package⟩
  let (lines, imports) := (declarationLines sheet (g.size + 1) 0 id).run []
  { path := sourcePath decl.package decl.name
    name := g.qualifiedName id
    contents := contents decl.package (sortedImports imports) lines }

/-- The files of all top-level types, ordered by path. -/
def sourceFiles (settings : Settings) (g : TypeGraph) (decorations : Decorations) :
    List SourceFile :=
  (g.topLevel.map (sourceFile settings g decorations)).mergeSort fun a b => Path.le a.path b.path

end SchemaBeans.Java
