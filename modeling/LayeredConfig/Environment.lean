import LayeredConfig.Text.Lines

/-!
The environment of a run: named texts in the order in which they are listed.
-/

namespace LayeredConfig

/-- The variables of the environment. -/
abbrev Environment := List (String × String)

namespace Environment

/-- The text of a variable. -/
def get? (env : Environment) (name : String) : Option String := env.lookup name

/-- The home directory of the user. -/
def home? (env : Environment) : Option String := (env.get? "HOME").or (env.get? "USERPROFILE")

/-- A file name below a directory. -/
def below (directory : String) (rest : String) : String :=
  if directory.isEmpty ∨ directory.toList.getLast? = some '/' then directory ++ rest
  else directory ++ "/" ++ rest

def isSlash (c : Char) : Bool := c = '/' || c = '\\'

/-- A path with a leading tilde replaced by the home directory. The tilde stands for it when nothing
or a slash follows. -/
def expandHome (env : Environment) (path : String) : String :=
  match path.toList, env.home? with
  | '~' :: rest, some home =>
    let inner := rest.dropWhile isSlash
    if rest.isEmpty ∨ rest.head?.any isSlash then
      if inner.isEmpty then home else below home (String.ofList inner)
    else path
  | _, _ => path

end Environment

end LayeredConfig
