/-!
# Lines of text
-/

namespace SmallLisp.Text

/-- Lines as one text, each with a newline after it. -/
def unlines (lines : List String) : String :=
  lines.foldl (fun text line => text ++ line ++ "\n") ""

end SmallLisp.Text
