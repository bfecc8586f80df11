import ImportAtlas.FileTree.Listing
import ImportAtlas.Notice
import ImportAtlas.Search.Window

/-!
# Searching a tree

A search without a tool: the files of a folder are listed and searched one after the other. A
single file is searched whatever its name. Bytes that are not UTF-8 are replaced.
-/

namespace ImportAtlas

/-- The text of a file as it is searched, every line break a newline. -/
def searchedText (bytes : List UInt8) : List Char :=
  Text.universalNewlines (Text.decodeLossy bytes)

namespace FileTree

/-- The windows of a file. -/
def searchFile (tree : FileTree) (pattern : Pattern) (file : Path) : List Window :=
  searchWindows pattern file (searchedText ((tree.content? file).getD []))

/-- The windows of a file, or of the files to scan below a folder, and what there is to tell. -/
def search (tree : FileTree) (pattern : Pattern) (target : Path) (globs : ScanGlobs) :
    Except ListingError (List Window) × List Notice :=
  if tree.isFile target then (.ok (tree.searchFile pattern target.resolved), [])
  else if tree.isFolder target then
    ((tree.list target.resolved globs).map fun files => files.flatMap (tree.searchFile pattern), [])
  else (.ok [], [.searchTargetMissing target])

end FileTree

end ImportAtlas
