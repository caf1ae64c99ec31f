import OptionScan.Text.Lines

/-!
Places in the tree of files. A path is walked name by name, and a symbolic link is followed where
the walk meets it, so that two dots after a link lead to the parent of the place behind the link.
-/

namespace OptionScan.Runner

/-- The names on the way from the root to a place, the last one first. -/
abbrev Place := List String

namespace Place

def process : Place := ["self", "proc"]

/-- The directory of its only thread, whatever the number that the thread goes by. -/
def thread : Place := "thread" :: "task" :: process

/-- What is found in the directory of a process is found in those of its threads as well. -/
def isOwn (place : Place) : Bool :=
  place == process || place == thread

def stream (number : String) : Place :=
  number :: "fd" :: process

def stream? : Place → Option String
  | number :: "fd" :: owner => if isOwn owner then some number else none
  | _ => none

/-- Where the symbolic link at a place leads, as far as it leads to the running process or is found
in its directory. The process runs in the given directory. -/
def link? (directory : Place) : Place → Option Place
  | ["fd", "dev"] => some ("fd" :: process)
  | ["stdin", "dev"] => some (stream "0")
  | ["stdout", "dev"] => some (stream "1")
  | ["stderr", "dev"] => some (stream "2")
  | ["thread-self", "proc"] => some thread
  | ["net", "proc"] => some ("net" :: process)
  | "root" :: owner => if isOwn owner then some [] else none
  | "cwd" :: owner => if isOwn owner then some directory else none
  | _ => none

/-- The next place on a walk. A single dot leads nowhere, and two dots lead to the parent; the root
is its own. -/
def next (directory place : Place) : String → Place
  | "." => place
  | ".." => place.tail
  | name => (link? directory (name :: place)).getD (name :: place)

def ofPath (directory : Place) (path : String) : Place :=
  (pieces (· == '/') path).foldl (next directory)
    (if path.toList.head? = some '/' then [] else directory)

end Place

end OptionScan.Runner
