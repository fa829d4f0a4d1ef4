/-!
Keyword spelling: a name may be written with one colon in front, which does not count. Main
statement: the colon comes off once, so a name that is already plain stays as it is.
-/
namespace Folio.Style

def stripKeyword (name : String) : String :=
  match name.toList with
  | ':' :: rest => String.ofList rest
  | _ => name

/-- The form in which names are compared with the known ones. -/
def plainName (name : String) : String := (stripKeyword name).toLower

theorem stripKeyword_colon (name : String) : stripKeyword (":" ++ name) = name := by
  simp [stripKeyword]

theorem stripKeyword_of_plain {name : String} (h : name.toList.head? ≠ some ':') :
    stripKeyword name = name := by
  unfold stripKeyword
  split
  · rename_i heq
    simp [heq] at h
  · rfl

end Folio.Style
