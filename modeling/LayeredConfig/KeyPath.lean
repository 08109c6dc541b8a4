import LayeredConfig.Text.Lines

/-!
Paths through nested sections: sequences of names, written with dots between them.

The empty text is the empty path. A name may itself hold dots, and then its path can not be told
from that of nested names once it is written.
-/

namespace LayeredConfig

/-- The names on the way to an entry or section. -/
abbrev KeyPath := List String

namespace KeyPath

/-- The path that a text spells. -/
def parse (text : String) : KeyPath :=
  if text.toList.isEmpty then [] else (Text.split '.' text.toList).map String.ofList

/-- The text of a path. -/
def dotted (p : KeyPath) : String := Text.joined "." p

/-- The last name and the path before it. -/
def splitLast? (p : KeyPath) : Option (String × KeyPath) :=
  p.getLast?.map fun last => (last, p.dropLast)

def isRoot (p : KeyPath) : Bool := p.isEmpty

def join (p : KeyPath) (name : String) : KeyPath := p ++ [name]

end KeyPath

end LayeredConfig
