/-! # Media types

A request says of what type its body is: a type and a subtype with a slash between them, and perhaps
parameters after semicolons. A body is taken for JSON if its type is `application` and its subtype
is `json`, or ends in `+json`, or begins with `json+` and has no other plus. Upper and lower case are
the same.
-/

namespace DeviceLog.MediaType

def isNameChar (c : Char) : Bool :=
  c.isAlphanum || "!#$%&'*+-.^_\x60|~".toList.contains c

def isQuotable (c : Char) : Bool := 31 < c.toNat && c.toNat ≠ 127

/-- Whether a character may stand in the header of a request. -/
def isVisible (c : Char) : Bool := (32 ≤ c.toNat && c.toNat < 127) || c = '\t'

/-- What comes after the closing quote of a value that has begun. The first character of a value is
part of it, even a quote. -/
def afterQuote (begun : Bool) : List Char → Option (List Char)
  | [] => none
  | c :: rest =>
    if c = '"' ∧ begun then some rest
    else if isQuotable c then afterQuote true rest
    else none

/-- What comes after the name of a parameter and its equals sign. -/
def afterName (begun : Bool) : List Char → Option (List Char)
  | [] => none
  | c :: rest =>
    if c = '=' ∧ begun then some rest
    else if isNameChar c then afterName true rest
    else none

/-- What comes after a value without quotes: the end, or a semicolon and more. -/
def afterBare (begun : Bool) : List Char → Option (List Char)
  | [] => some []
  | c :: rest =>
    if c = ';' ∧ begun then some rest
    else if isNameChar c then afterBare true rest
    else none

/-- What comes after the blanks that follow a value in quotes: the end, or a semicolon and more. -/
def afterBlanks : List Char → Option (List Char)
  | [] => some []
  | c :: rest => if c = ';' then some rest else if c = ' ' then afterBlanks rest else none

def afterParameter (cs : List Char) : Option (List Char) := do
  match ← afterName false cs with
  | '"' :: rest => afterQuote false rest >>= afterBlanks
  | rest => afterBare false rest

/-- Whether what follows the first semicolon are parameters. Each turn passes a character at
least. -/
def areParameters : Nat → List Char → Bool
  | _, [] => true
  | 0, _ => false
  | turns + 1, ' ' :: rest => areParameters turns rest
  | turns + 1, cs =>
    match afterParameter cs with
    | some rest => areParameters turns rest
    | none => false

/-- The name at the front, up to a character that ends it. -/
def nameUpTo (ends : Char) (cs : List Char) : List Char × List Char := cs.span (· ≠ ends)

/-- The subtype without its last plus and what follows, and what follows that plus. -/
def splitSuffix (subtype : List Char) : List Char × Option (List Char) :=
  match subtype with
  | [] => ([], none)
  | first :: rest =>
    -- A plus at the very beginning separates nothing.
    let suffix := (rest.reverse.takeWhile (· ≠ '+')).reverse
    if suffix.length = rest.length then (subtype, none)
    else (first :: rest.take (rest.length - suffix.length - 1), some suffix)

/-- Whether a type and subtype are those of JSON. -/
def namesJson (type subtype : List Char) : Bool :=
  let (name, suffix) := splitSuffix (subtype.map Char.toLower)
  type.map Char.toLower = "application".toList
    && (name = "json".toList || suffix = some "json".toList)

def isJson (text : String) : Bool :=
  let (type, rest) := nameUpTo '/' text.toList
  match rest with
  | [] => false
  | _ :: rest =>
    let (subtype, parameters) := nameUpTo ';' rest
    text.toList.all isVisible && type.all isNameChar && subtype.all isNameChar
      && (subtype ≠ [] || parameters = []) && areParameters parameters.length (parameters.drop 1)
      && namesJson type subtype

end DeviceLog.MediaType
