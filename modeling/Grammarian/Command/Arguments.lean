/-!
# Arguments

How the words behind the name of a command are read: values in their order, options that take a value,
and flags. An option is written `--name value`, `--name=value`, `-n value`, `-nvalue` or `-n=value`, a flag
`--name`. Everything behind a lone `--` is a value. No option and no flag is given twice.
-/

namespace Grammarian.Command

/-- What a command accepts. -/
structure Usage where
  /-- how many values it needs -/
  valueCount : Nat
  /-- the options, with the letter of their short form -/
  options : List (String × Char)
  flags : List String

/-- The words of a command, read. -/
structure Arguments where
  values : List String := []
  options : List (String × String) := []
  flags : List String := []

namespace Arguments

def option? (a : Arguments) (name : String) : Option String := a.options.lookup name

def flag (a : Arguments) (name : String) : Bool := a.flags.contains name

def addValue (a : Arguments) (word : String) : Arguments := { a with values := a.values ++ [word] }

def addOption? (a : Arguments) (name value : String) : Option Arguments :=
  if (a.option? name).isSome then none
  else some { a with options := a.options ++ [(name, value)] }

def addFlag? (a : Arguments) (name : String) : Option Arguments :=
  if a.flag name then none else some { a with flags := a.flags ++ [name] }

end Arguments

/-- What a single word is. -/
inductive Word where
  | value (text : String)
  /-- a lone `--` -/
  | noMoreOptions
  /-- an option whose value is the next word -/
  | option (name : String)
  | optionWith (name value : String)
  | flag (name : String)

/-- Splits a text at the first equals sign. -/
def splitEquals (cs : List Char) : List Char × Option (List Char) :=
  match cs.dropWhile (· ≠ '=') with
  | '=' :: value => (cs.takeWhile (· ≠ '='), some value)
  | _ => (cs, none)

/-- The word behind two dashes. -/
def Usage.longWord? (u : Usage) (cs : List Char) : Option Word :=
  let (nameChars, value) := splitEquals cs
  let name := String.ofList nameChars
  match value with
  | some v =>
    if (u.options.lookup name).isSome then some (.optionWith name (String.ofList v)) else none
  | none =>
    if (u.options.lookup name).isSome then some (.option name)
    else if u.flags.contains name then some (.flag name)
    else none

/-- The word of a letter behind one dash, and what stands behind the letter. -/
def Usage.shortWord? (u : Usage) (letter : Char) (r : List Char) : Option Word :=
  match u.options.find? (·.2 = letter) with
  | some (name, _) =>
    match r with
    | [] => some (.option name)
    | '=' :: value => some (.optionWith name (String.ofList value))
    | value => some (.optionWith name (String.ofList value))
  | none => none

/-- What a word is; nothing if it looks like an option and is none. -/
def Usage.word? (u : Usage) (text : String) : Option Word :=
  match text.toList with
  | ['-', '-'] => some .noMoreOptions
  | '-' :: '-' :: cs => u.longWord? cs
  | '-' :: letter :: r => u.shortWord? letter r
  | _ => some (.value text)

/-- Reads words on top of `a`. -/
def Usage.readOnto? (u : Usage) (a : Arguments) : List String → Option Arguments
  | [] => some a
  | text :: more =>
    match u.word? text with
    | some (.value v) => u.readOnto? (a.addValue v) more
    | some .noMoreOptions => some (more.foldl Arguments.addValue a)
    | some (.option name) =>
      match more with
      | [] => none
      | v :: more =>
        match u.word? v with
        | some (.value v) => (a.addOption? name v).bind fun a => u.readOnto? a more
        | _ => none
    | some (.optionWith name v) => (a.addOption? name v).bind fun a => u.readOnto? a more
    | some (.flag name) => (a.addFlag? name).bind fun a => u.readOnto? a more
    | none => none

/-- The arguments of a command, if it accepts the words. -/
def Usage.read? (u : Usage) (words : List String) : Option Arguments :=
  match u.readOnto? {} words with
  | some a => if a.values.length = u.valueCount then some a else none
  | none => none

end Grammarian.Command
