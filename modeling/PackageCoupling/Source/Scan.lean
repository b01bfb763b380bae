import PackageCoupling.Language.Basic
import PackageCoupling.Source.GoImports
import PackageCoupling.Source.PythonImports
import PackageCoupling.Source.RustImports
import PackageCoupling.Source.ScriptImports

/-!
Finding the declared package and the imports of a source in any of the languages.

The scanners look for declarations among the tokens of a source and build no syntax tree. In sources
without syntax errors they find what the grammars of the languages find. A declaration with an error
in it is passed over; a parser that recovers from errors may still take something from it.
-/

namespace PackageCoupling.Source

/-- What the source of a file declares and imports, in the order of the text. -/
def scan (language : Language) (content : Bytes) : List Capture :=
  let gs := glyphs content
  match language with
  | .go => GoImports.captures gs
  | .rust => RustImports.captures gs
  | .python => PythonImports.captures gs
  | .javaScript => ScriptImports.captures ⟨true, false⟩ gs
  | .typeScript => ScriptImports.captures ⟨false, true⟩ gs
  | .tsx => ScriptImports.captures ⟨true, true⟩ gs

end PackageCoupling.Source
