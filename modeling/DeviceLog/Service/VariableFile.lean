import DeviceLog.Service.Variables
import DeviceLog.Text.Character
import DeviceLog.Text.Utf8

/-! # Files of variables

Variables may be set by a file of statements such as `NAME=value`, and `export` may stand before the
name. What is set already keeps its value.

* `VariableFile.statements` cuts a file into statements. Most are lines; a line end inside quotes
  does not end a statement, and after a blank `#` begins a comment.
* `VariableFile.assignment?` tells the name from the value, and `VariableFile.valueFrom` reads the
  value: quotes go, and `$NAME` stands for the value of a variable.
* `Environment.addFile?` sets what a file sets, up to the first statement that makes no sense, unless
  a value is one that no variable can have. `VariableFile.asksFor` names what may have to be known
  for that.
-/

namespace DeviceLog

namespace VariableFile

/-- The mark around a text that is taken as it stands. -/
def apostrophe : Char := Char.ofNat 39

/-! ## Statements -/

/-- What the next character of a statement stands in. -/
inductive Within where
  | plain
  /-- After a blank, where a comment may begin. -/
  | blank
  /-- After a backslash. -/
  | escape
  | double
  | doubleEscape
  | single
  | singleEscape
  deriving DecidableEq, Repr

/-- What is begun by a character that is no blank. -/
def Within.opening (c : Char) : Within :=
  if c = '\\' then escape
  else if c = '"' then double
  else if c = apostrophe then single
  else plain

def Within.after : Within → Char → Within
  | plain, c => if Text.isBlank c ∧ c ≠ '\n' ∧ c ≠ '\r' then blank else opening c
  | blank, c => opening c
  | escape, _ => plain
  | double, c => if c = '\\' then doubleEscape else if c = '"' then plain else double
  | doubleEscape, _ => double
  | single, c => if c = '\\' then singleEscape else if c = apostrophe then plain else single
  | singleEscape, _ => single

/-- The characters of a line up to the comment in it, and what stands after them if there is no
comment. -/
def scan (w : Within) : List Char → List Char × Option Within
  | [] => ([], some w)
  | c :: rest =>
    if w = .blank ∧ c = '#' then ([], none)
    else
      let (kept, w) := scan (w.after c) rest
      (c :: kept, w)

/-- Characters without the line end that they end in. -/
def withoutEnd (cs : List Char) : List Char :=
  match cs.reverse with
  | '\n' :: '\r' :: rest => rest.reverse
  | '\n' :: rest => rest.reverse
  | _ => cs

/-- The statements of lines, after the characters of the statement that has begun. They end where a
line is not text, and a last statement without end is left out. -/
def statementsAfter (begun : List Char) (w : Within) : List (Option String) → List (List Char)
  | [] => []
  | none :: _ => []
  | some line :: rest =>
    let all := begun ++ line.toList
    if (all.dropWhile Text.isBlank).head? = some '#' then [] :: statementsAfter [] .plain rest
    else
      match scan w line.toList with
      | (kept, none) => (begun ++ kept) :: statementsAfter [] .plain rest
      | (_, some .plain) => withoutEnd all :: statementsAfter [] .plain rest
      | (_, some w) => statementsAfter all w rest

/-- Bytes cut after each line end, after the bytes of the line that has begun, last first. -/
def lines (begun : Bytes) : Bytes → List Bytes
  | [] => if begun = [] then [] else [begun.reverse]
  | b :: rest => if b = 10 then (b :: begun).reverse :: lines [] rest else lines (b :: begun) rest

/-- Bytes without the mark that may stand before a text. -/
def withoutMark : Bytes → Bytes
  | 0xEF :: 0xBB :: 0xBF :: rest => rest
  | bytes => bytes

def statements (bytes : Bytes) : List (List Char) :=
  statementsAfter [] .plain ((lines [] (withoutMark bytes)).map Utf8.decode?)

/-! ## Names -/

def name? : List Char → Option (String × List Char)
  | [] => none
  | c :: rest =>
    if c.isAlpha ∨ c = '_' then
      let (more, rest) := rest.span fun c => c.isAlphanum ∨ c = '_' ∨ c = '.'
      some (String.ofList (c :: more), rest)
    else none

/-- What follows an equals sign, perhaps after blanks, without the blanks after it. -/
def afterEquals? (cs : List Char) : Option (List Char) :=
  match cs.dropWhile Text.isBlank with
  | '=' :: rest => some (rest.dropWhile Text.isBlank)
  | _ => none

/-- The name and the value of a statement. -/
def assignment? (cs : List Char) : Option (String × List Char) :=
  match name? cs with
  | none => none
  | some (name, rest) =>
    match afterEquals? rest with
    | some value => some (name, value)
    | none =>
      -- A variable may have this name too, if an equals sign follows it.
      if name = "export" then do
        let (name, rest) ← name? (rest.dropWhile Text.isBlank)
        return (name, ← afterEquals? rest)
      else none

/-! ## Values -/

/-- What the next character of a value stands in. The flag tells whether that is inside of double
quotes. -/
inductive Part where
  | text (quoted : Bool)
  /-- After a backslash. -/
  | escape (quoted : Bool)
  | single
  /-- After a dollar sign and the characters of a name, last first. -/
  | name (quoted : Bool) (found : List Char)
  /-- The same, in braces. -/
  | braced (quoted : Bool) (found : List Char)
  /-- After the blank that ends the value. -/
  | ended
  | comment
  deriving DecidableEq, Repr

namespace Part

/-- The value of a variable by its characters, last first. -/
def valueOf (env : Environment) (found : List Char) : List Char :=
  (env.orEmpty (String.ofList found.reverse)).toList

/-- What a character adds to a value, and what stands after it. -/
def step (env : Environment) : Part → Char → Option (List Char × Part)
  | text quoted, c =>
    if c = '$' then some ([], name quoted [])
    else if c = '\\' then some ([], escape quoted)
    else if c = '"' then some ([], text (!quoted))
    -- Within double quotes blanks and apostrophes are characters like others.
    else if quoted then some ([c], text true)
    else if c = apostrophe then some ([], single)
    else if c = ' ' ∨ c = '\t' then some ([], ended)
    else some ([c], text false)
  | escape quoted, c =>
    if c = 'n' then some (['\n'], text quoted)
    else if c = '\\' ∨ c = apostrophe ∨ c = '"' ∨ c = '$' ∨ c = ' ' then some ([c], text quoted)
    else none
  | single, c => if c = apostrophe then some ([], text false) else some ([c], single)
  | name quoted found, c =>
    if Text.isLetterOrNumber c then some ([], name quoted (c :: found))
    else if c = '\x7b' ∧ found = [] then some ([], braced quoted [])
    else if c = '$' then some (valueOf env found, name quoted [])
    else some (valueOf env found ++ [c], text quoted)
  | braced quoted found, c =>
    if c = '\x7d' then some (valueOf env found, text quoted)
    else some ([], braced quoted (c :: found))
  | ended, c =>
    if c = ' ' ∨ c = '\t' then some ([], ended) else if c = '#' then some ([], comment) else none
  | comment, _ => some ([], comment)

/-- What the end adds to a value. Quotes and braces must have been closed. -/
def finish (env : Environment) : Part → Option (List Char)
  | text false => some []
  | escape false => some []
  | name false found => some (valueOf env found)
  | ended => some []
  | comment => some []
  | _ => none

end Part

def valueFrom (env : Environment) (part : Part) : List Char → Option (List Char)
  | [] => part.finish env
  | c :: rest =>
    match part.step env c with
    | none => none
    | some (added, part) => (valueFrom env part rest).map (added ++ ·)

/-- Whether there is nothing in characters but a comment. -/
def isIdle (cs : List Char) : Bool := cs = [] ∨ cs.head? = some '#'

/-- What a statement sets. -/
inductive Setting where
  | nothing
  | variable (name value : String)
  /-- The statement makes no sense. -/
  | senseless
  deriving DecidableEq, Repr

def setting (env : Environment) (statement : List Char) : Setting :=
  let cs := Text.trimmed statement
  if isIdle cs then .nothing
  else
    match assignment? cs with
    | none => .senseless
    | some (name, value) =>
      if isIdle value then .variable name ""
      else
        match valueFrom env (.text false) value with
        | none => .senseless
        | some value => .variable name (String.ofList value)

/-- The environment after statements, up to the first that makes no sense, unless a value is one that
no variable can have. -/
def obey? (env : Environment) : List (List Char) → Option Environment
  | [] => some env
  | statement :: rest =>
    match setting env statement with
    | .nothing => obey? env rest
    | .senseless => some env
    | .variable name value =>
      match env.add? name value with
      | none => none
      | some env => obey? env rest

/-- The names after the dollar signs in characters. -/
def mentioned : List Char → List String
  | [] => []
  | c :: rest =>
    if c = '$' then
      let name := match rest with
        | '\x7b' :: rest => rest.takeWhile fun c => c ≠ '\x7d'
        | rest => rest.takeWhile Text.isLetterOrNumber
      String.ofList name :: mentioned rest
    else mentioned rest

/-- The names of the variables whose values a file may ask for. -/
def asksFor (bytes : Bytes) : List String := (statements bytes).flatMap mentioned

end VariableFile

/-- The environment with the variables that a file sets. -/
def Environment.addFile? (env : Environment) (bytes : Bytes) : Option Environment :=
  VariableFile.obey? env (VariableFile.statements bytes)

end DeviceLog
