import TagTemplate.Link.Query

/-!
# Links

A link is written as its URL, or, where pretty links are wanted, as a path of
the values of its query. A key given twice has its first place and its last
value.
-/

namespace TagTemplate.Link

/-- The path that stands for a URL. -/
def path (url : Text) : Text :=
  "./".toList ++ Text.joinWith ['/'] ((Bindings.ofList (pairs (query url))).entries.map Prod.snd)

/-- A link as it is written. -/
def write (pretty : Bool) (url : Text) : Text := if pretty then path url else url

example : write true "?action=view&id=5".toList = "./view/5".toList := by decide +kernel

end TagTemplate.Link
