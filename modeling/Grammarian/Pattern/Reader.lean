import Grammarian.Pattern.Regex

/-!
# Reading regular expressions

A reader for the usual notation of regular expressions: alternation, groups, repetitions with counts,
bracketed classes with set operations, escapes, and flags that hold to the end of their group. There
are no back references and no look-around. `readRegex?` answers nothing for an ill-formed text.

This is what programs can rely on of the usual library for such expressions. Two things of it are left
out: classes by a Unicode property, `\p` and `\P`, which are refused, and a limit on how deep groups
are nested. Its limit on the size of a compiled expression is approximated by `maxWeight`.

Every function takes the text still to be read and answers what is left of it. The functions that
call one another carry a bound on the number of calls, which the length of the text provides.
-/

namespace Grammarian.Pattern

open Text

/-- What changes the meaning of the notation. -/
structure Flags where
  /-- `i`: letters match without regard to case -/
  ignoreCase : Bool := false
  /-- `m`: `^` and `$` hold at every line -/
  multiLine : Bool := false
  /-- `s`: a dot matches line ends too -/
  dotAll : Bool := false
  /-- `U`: repetitions are lazy, and greedy when marked by `?` -/
  swapGreed : Bool := false
  /-- `u`: classes and case are those of Unicode rather than of ASCII -/
  unicode : Bool := true
  /-- `R`: a carriage return, alone or before a line feed, ends a line too -/
  crlf : Bool := false
  /-- `x`: blanks and comments between the elements are left out -/
  verbose : Bool := false

/-! ## Blanks and numbers -/

/-- The text after its blanks and comments; a comment runs from `#` to the end of the line. -/
def skipBlanks (inComment : Bool) : List Char → List Char
  | [] => []
  | c :: cs =>
    if inComment then skipBlanks (c ≠ '\n') cs
    else if isSpace c then skipBlanks false cs
    else if c = '#' then skipBlanks true cs
    else c :: cs

/-- Leaves out blanks where the verbose notation allows them. -/
def Flags.skip (fl : Flags) (cs : List Char) : List Char :=
  if fl.verbose then skipBlanks false cs else cs

/-- Leading digits of a count; verbose notation allows blanks among them. -/
def readDigits (verbose inComment : Bool) : List Char → List Char × List Char
  | [] => ([], [])
  | c :: cs =>
    if inComment then readDigits verbose (c ≠ '\n') cs
    else if isAsciiDigit c then
      let (ds, r) := readDigits verbose false cs
      (c :: ds, r)
    else if verbose ∧ isSpace c then readDigits verbose false cs
    else if verbose ∧ c = '#' then readDigits verbose true cs
    else ([], c :: cs)

/-- The largest count of a repetition. -/
def maxCount : Nat := 4294967295

/-- A count, which may stand between blanks. -/
def readCount? (fl : Flags) (cs : List Char) : Option (Nat × List Char) :=
  let (ds, r) := readDigits fl.verbose false (cs.dropWhile isSpace)
  if ds.isEmpty then none
  else
    let n := ds.foldl (fun n d => 10 * n + (d.toNat - '0'.toNat)) 0
    if n ≤ maxCount then some (n, r.dropWhile isSpace) else none

/-- What stands between the braces of a repetition: the least count and the greatest, if any. -/
def readBounds? (fl : Flags) (cs : List Char) : Option (Nat × Option Nat × List Char) := do
  let (low, r) ← readCount? fl (fl.skip cs)
  match r with
  | '\x7d' :: r => some (low, some low, r)
  | ',' :: r =>
    match fl.skip r with
    | '\x7d' :: r => some (low, none, r)
    | r => do
      let (high, r) ← readCount? fl r
      match r with
      | '\x7d' :: r => if low ≤ high then some (low, some high, r) else none
      | _ => none
  | _ => none

/-! ## Escapes -/

/-- What an escape stands for. -/
inductive Escape where
  | char (c : Char)
  | set (s : CharSet)
  | look (l : Look)

/-- Exactly `count` hexadecimal digits. -/
def readHex? (fl : Flags) : Nat → List Char → Option (List Char × List Char)
  | 0, cs => some ([], cs)
  | n + 1, cs =>
    match fl.skip cs with
    | c :: r =>
      if isHexDigit c then (readHex? fl n r).map fun (ds, r) => (c :: ds, r) else none
    | [] => none

/-- Hexadecimal digits up to a closing brace. -/
def readBracedHex? (verbose inComment : Bool) : List Char → Option (List Char × List Char)
  | [] => none
  | c :: cs =>
    if inComment then readBracedHex? verbose (c ≠ '\n') cs
    else if c = '\x7d' then some ([], cs)
    else if isHexDigit c then
      (readBracedHex? verbose false cs).map fun (ds, r) => (c :: ds, r)
    else if verbose ∧ isSpace c then readBracedHex? verbose false cs
    else if verbose ∧ c = '#' then readBracedHex? verbose true cs
    else none

/-- A character given by its code: `count` digits, or any number of them in braces. Without Unicode two
digits stand for a byte, which has to be a character by itself. -/
def readCode? (fl : Flags) (count : Nat) (cs : List Char) : Option (Escape × List Char) := do
  let (isByte, ds, r) ← match fl.skip cs with
    | '\x7b' :: r => (readBracedHex? fl.verbose false r).map fun (ds, r) => (false, ds, r)
    | r => (readHex? fl count r).map fun (ds, r) => (count = 2, ds, r)
  if ds.isEmpty then none
  else
    let c ← scalar? (hexValue ds)
    if isByte ∧ !fl.unicode ∧ !isAscii c then none else some (.char c, r)

/-- A class written by one letter, and its complement by the capital. Without Unicode a complement
would split characters, so it is refused. -/
def classEscape? (fl : Flags) (wide narrow : NamedClass) (negated : Bool) : Option Escape :=
  if fl.unicode then
    some (.set (if negated then .compl (.named wide) else .named wide))
  else if negated then none
  else some (.set (.named narrow))

/-- The characters that mean something in patterns and may always be escaped. -/
def isMeta (c : Char) : Bool :=
  c ∈ ['\\', '.', '+', '*', '?', '(', ')', '|', '[', ']', '\x7b', '\x7d', '^', '$', '#', '&', '-',
    '~']

/-- Whether a backslash may stand before `c` to mean `c`: any ASCII character but a letter, a digit
and an angle bracket. -/
def isEscapable (c : Char) : Bool :=
  isMeta c || (isAscii c && !isAsciiAlnum c && c ≠ '<' && c ≠ '>')

/-- The characters of a special word boundary `\b{name}`. -/
def isBoundaryChar (c : Char) : Bool := isAsciiLetter c || c = '-'

/-- Letters and dashes up to the first other character. -/
def readBoundaryName (verbose inComment : Bool) : List Char → List Char × List Char
  | [] => ([], [])
  | c :: cs =>
    if inComment then readBoundaryName verbose (c ≠ '\n') cs
    else if isBoundaryChar c then
      let (ds, r) := readBoundaryName verbose false cs
      (c :: ds, r)
    else if verbose ∧ isSpace c then readBoundaryName verbose false cs
    else if verbose ∧ c = '#' then readBoundaryName verbose true cs
    else ([], c :: cs)

/-- What follows `\b`: a name in braces makes it a special word boundary; other braces are left to be
read as a repetition. -/
def readBoundary? (fl : Flags) (cs : List Char) : Option (Escape × List Char) :=
  match cs with
  | '\x7b' :: r =>
    match fl.skip r with
    | [] => none
    | c :: _ =>
      if isBoundaryChar c then
        match readBoundaryName fl.verbose false (fl.skip r) with
        | (name, '\x7d' :: r) =>
          match String.ofList name with
          | "start" => some (.look .wordStart, r)
          | "end" => some (.look .wordEnd, r)
          | "start-half" => some (.look .wordStartHalf, r)
          | "end-half" => some (.look .wordEndHalf, r)
          | _ => none
        | _ => none
      else some (.look .wordBoundary, cs)
  | _ => some (.look .wordBoundary, cs)

/-- What follows a backslash. -/
def readEscape? (fl : Flags) : List Char → Option (Escape × List Char)
  | [] => none
  | c :: r =>
    let withRest (e : Option Escape) : Option (Escape × List Char) := e.map fun e => (e, r)
    match c with
    | 'x' => readCode? fl 2 r
    | 'u' => readCode? fl 4 r
    | 'U' => readCode? fl 8 r
    | 'd' => withRest (classEscape? fl .digit .asciiDigit false)
    | 'D' => withRest (classEscape? fl .digit .asciiDigit true)
    | 's' => withRest (classEscape? fl .space .asciiSpace false)
    | 'S' => withRest (classEscape? fl .space .asciiSpace true)
    | 'w' => withRest (classEscape? fl .word .asciiWord false)
    | 'W' => withRest (classEscape? fl .word .asciiWord true)
    | 'a' => some (.char '\x07', r)
    | 'f' => some (.char '\x0c', r)
    | 't' => some (.char '\t', r)
    | 'n' => some (.char '\n', r)
    | 'r' => some (.char '\r', r)
    | 'v' => some (.char '\x0b', r)
    | 'A' => some (.look .textStart, r)
    | 'z' => some (.look .textEnd, r)
    | 'b' => readBoundary? fl r
    | 'B' => some (.look .notWordBoundary, r)
    | '<' => some (.look .wordStart, r)
    | '>' => some (.look .wordEnd, r)
    | c => if isEscapable c then some (.char c, r) else none

/-! ## Bracketed classes -/

/-- An operator between two parts of a bracketed class. -/
inductive SetOp where
  | inter
  | diff
  | symmDiff

/-- The part of a class read before an operator, and the operator. -/
abbrev Pending := Option (SetOp × CharSet)

/-- Case variants added where case is ignored. -/
def Flags.fold (fl : Flags) (s : CharSet) : CharSet :=
  if !fl.ignoreCase then s
  else if fl.unicode then .foldCase s
  else .inter (.foldCase s) (.named .ascii)

/-- Joins a part of a class with the part before it. -/
def Pending.close (fl : Flags) (pending : Pending) (part : CharSet) : CharSet :=
  match pending with
  | none => part
  | some (.inter, a) => .inter (fl.fold a) (fl.fold part)
  | some (.diff, a) => .diff (fl.fold a) (fl.fold part)
  | some (.symmDiff, a) => .symmDiff (fl.fold a) (fl.fold part)

/-- What follows `[` of a class such as `[:alpha:]`. -/
def readNamedClass? (fl : Flags) (cs : List Char) : Option (CharSet × List Char) :=
  match cs with
  | ':' :: r =>
    let (negated, r) := match r with
      | '^' :: r => (true, r)
      | r => (false, r)
    match r.dropWhile (· ≠ ':') with
    | ':' :: ']' :: rest =>
      (NamedClass.ofName? (String.ofList (r.takeWhile (· ≠ ':')))).map fun n =>
        (if negated then .compl (fl.fold (.named n)) else .named n, rest)
    | _ => none
  | _ => none

/-- One item of a class: a character, or the set that an escape stands for. -/
def readClassItem? (fl : Flags) : List Char → Option (Escape × List Char)
  | '\\' :: r =>
    match readEscape? fl r with
    | some (.look _, _) => none
    | e => e
  | c :: r => some (.char c, r)
  | [] => none

/-- Without Unicode a class can name ASCII characters only. -/
def Flags.admits (fl : Flags) (c : Char) : Bool := fl.unicode || isAscii c

/-- The character after a dash, looked at beyond blanks and the `#` of a comment. -/
def peekBlanks (fl : Flags) (cs : List Char) : Option Char :=
  if fl.verbose then
    match cs.dropWhile isSpace with
    | '#' :: r => (r.dropWhile isSpace).head?
    | [] => cs.head?
    | c :: _ => some c
  else cs.head?

/-- An item of a class or a range of characters. A dash before `]` or another dash makes no range. -/
def readClassRange? (fl : Flags) (cs : List Char) : Option (CharSet × List Char) := do
  let (item, r) ← readClassItem? fl cs
  let alone : Option (CharSet × List Char) := match item with
    | .char c => if fl.admits c then some (.single c, fl.skip r) else none
    | .set s => some (s, fl.skip r)
    | .look _ => none
  match fl.skip r with
  | [] => none
  | '-' :: r =>
    let next := peekBlanks fl r
    if next = some ']' ∨ next = some '-' then alone
    else if (fl.skip r).isEmpty then none
    else do
      let (last, r) ← readClassItem? fl (fl.skip r)
      match item, last with
      | .char low, .char high =>
        if low ≤ high ∧ fl.admits low ∧ fl.admits high then some (.range low high, r) else none
      | _, _ => none
  | _ => alone

/-- The dashes at the front of a class, which stand for themselves. -/
def leadingDashes (fl : Flags) : Nat → CharSet → List Char → CharSet × List Char
  | 0, s, cs => (s, cs)
  | n + 1, s, cs =>
    match cs with
    | '-' :: r => leadingDashes fl n (.union s (.single '-')) (fl.skip r)
    | cs => (s, cs)

/-- What a class matches once it is closed. -/
def closeClass (fl : Flags) (negated : Bool) (s : CharSet) : CharSet :=
  if negated then .compl (fl.fold s) else fl.fold s

mutual

/-- A bracketed class, from behind its opening bracket. -/
def readClass? (fl : Flags) : Nat → List Char → Option (CharSet × List Char)
  | 0, _ => none
  | n + 1, cs => do
    let (negated, cs) := match fl.skip cs with
      | '^' :: r => (true, fl.skip r)
      | r => (false, r)
    let (dashes, r) := leadingDashes fl cs.length .none cs
    let (start, r) := match cs, r with
      | ']' :: _, ']' :: r => (CharSet.single ']', fl.skip r)
      | _, r => (dashes, r)
    if r.isEmpty then none
    else
      let (s, r) ← readClassParts? fl n none start r
      some (closeClass fl negated s, r)

/-- The items of a class up to its closing bracket: `part` gathers them, `pending` is the part before
the last operator. -/
def readClassParts? (fl : Flags) :
    Nat → Pending → CharSet → List Char → Option (CharSet × List Char)
  | 0, _, _, _ => none
  | n + 1, pending, part, cs =>
    match fl.skip cs with
    | [] => none
    | ']' :: r => some (pending.close fl part, r)
    | '[' :: r =>
      match readNamedClass? fl r with
      | some (s, r) => readClassParts? fl n pending (.union part s) r
      | none => do
        let (s, r) ← readClass? fl n r
        readClassParts? fl n pending (.union part s) r
    | '&' :: '&' :: r => readClassParts? fl n (some (.inter, pending.close fl part)) .none r
    | '-' :: '-' :: r => readClassParts? fl n (some (.diff, pending.close fl part)) .none r
    | '~' :: '~' :: r => readClassParts? fl n (some (.symmDiff, pending.close fl part)) .none r
    | r => do
      let (s, r) ← readClassRange? fl r
      readClassParts? fl n pending (.union part s) r

end

/-! ## Groups and repetitions -/

/-- Sets one flag; nothing for a letter that is none. -/
def Flags.set? (fl : Flags) (c : Char) (on : Bool) : Option Flags :=
  match c with
  | 'i' => some { fl with ignoreCase := on }
  | 'm' => some { fl with multiLine := on }
  | 's' => some { fl with dotAll := on }
  | 'U' => some { fl with swapGreed := on }
  | 'u' => some { fl with unicode := on }
  | 'R' => some { fl with crlf := on }
  | 'x' => some { fl with verbose := on }
  | _ => none

/-- Flags up to `:` or `)`, which is left to be read. A flag may be given once, and a dash, which
turns the flags after it off, needs one behind it. -/
def readFlags? (seen : List Char) (on : Bool) (fl : Flags) : List Char → Option (Flags × List Char)
  | [] => none
  | c :: cs =>
    if c = ':' ∨ c = ')' then
      if seen.head? = some '-' then none else some (fl, c :: cs)
    else if seen.contains c then none
    else if c = '-' then readFlags? (c :: seen) false fl cs
    else do
      let fl ← fl.set? c on
      readFlags? (c :: seen) on fl cs

/-- Whether `c` may stand in the name of a group. -/
def isGroupNameChar (first : Bool) (c : Char) : Bool :=
  if first then c = '_' || isAlphabetic c
  else c = '_' || c = '.' || c = '[' || c = ']' || isAlphanumeric c

/-- The name of a group, up to and with its closing angle bracket. -/
def readGroupName? (cs : List Char) : Option (List Char × List Char) :=
  let name := cs.takeWhile (· ≠ '>')
  match name, cs.dropWhile (· ≠ '>') with
  | c :: r, _ :: rest =>
    if isGroupNameChar true c ∧ r.all (isGroupNameChar false) then some (name, rest) else none
  | _, _ => none

/-- How a parenthesis begins. -/
inductive GroupHead where
  /-- a group whose content is read under `flags` -/
  | group (flags : Flags)
  | named (name : List Char)
  /-- flags for what follows -/
  | setFlags (flags : Flags)

/-- What follows an opening parenthesis, up to the content of the group. -/
def readGroupHead? (fl : Flags) (cs : List Char) : Option (GroupHead × List Char) :=
  match fl.skip cs with
  | '?' :: '=' :: _ => none
  | '?' :: '!' :: _ => none
  | '?' :: '<' :: '=' :: _ => none
  | '?' :: '<' :: '!' :: _ => none
  | '?' :: 'P' :: '<' :: r => (readGroupName? r).map fun (name, r) => (.named name, r)
  | '?' :: '<' :: r => (readGroupName? r).map fun (name, r) => (.named name, r)
  | '?' :: r =>
    match readFlags? [] true fl r with
    | some (inner, ')' :: rest) => if r.head? = some ')' then none else some (.setFlags inner, rest)
    | some (inner, _ :: rest) => some (.group inner, rest)
    | _ => none
  | r => some (.group fl, r)

/-- A repetition of `a`; `lazily` tells whether it is marked so. -/
def repetition (fl : Flags) (low : Nat) (high : Option Nat) (lazily : Bool) (a : Regex) : Regex :=
  let greedy := fl.swapGreed == lazily
  match low, high with
  | 0, none => .star greedy a
  | 1, none => .plus greedy a
  | n + 2, none => .seq (.times (n + 1) a) (.plus greedy a)
  | 0, some high => .upTo high greedy a
  | low, some high =>
    if low = high then .times low a else .seq (.times low a) (.upTo (high - low) greedy a)

/-- The mark of a lazy repetition, if it follows. -/
def readLazy : List Char → Bool × List Char
  | '?' :: r => (true, r)
  | r => (false, r)

/-- What a dot matches. Without Unicode it would split characters, so it is refused. -/
def dot? (fl : Flags) : Option Regex :=
  if !fl.unicode then none
  else if fl.dotAll then some (.set .all)
  else if fl.crlf then some (.set .notLineEnd)
  else some (.set .notNewline)

/-- The expression for one character. -/
def literal (fl : Flags) (c : Char) : Regex :=
  .set (if fl.admits c then fl.fold (.single c) else .single c)

def lineStart (fl : Flags) : Regex :=
  .look (if !fl.multiLine then .textStart else if fl.crlf then .lineStartCrlf else .lineStart)

def lineEnd (fl : Flags) : Regex :=
  .look (if !fl.multiLine then .textEnd else if fl.crlf then .lineEndCrlf else .lineEnd)

/-- The expression for an escape. -/
def escape (fl : Flags) : Escape → Regex
  | .char c => literal fl c
  | .set s => .set s
  | .look l => if fl.unicode then .look l else .asciiLook l

/-- What has been read of the innermost open group. The latest branch and element come first; an
element is missing where flags were set, which cannot be repeated. -/
structure Progress where
  branches : List Regex := []
  elements : List (Option Regex) := []

namespace Progress

def push (p : Progress) (r : Regex) : Progress := { p with elements := some r :: p.elements }

def pushFlags (p : Progress) : Progress := { p with elements := none :: p.elements }

/-- The branch read last. -/
def branch (p : Progress) : Regex := .sequence (p.elements.reverse.filterMap id)

/-- Ends a branch. -/
def nextBranch (p : Progress) : Progress := { branches := p.branch :: p.branches }

/-- Puts a repetition around the last element, if there is one. -/
def repeatLast? (p : Progress) (fl : Flags) (low : Nat) (high : Option Nat) (lazily : Bool) :
    Option Progress :=
  match p.elements with
  | some a :: elements =>
    some { p with elements := some (repetition fl low high lazily a) :: elements }
  | _ => none

def close (p : Progress) : Regex := .choice (p.branch :: p.branches).reverse

end Progress

/-- The expression of a group, up to and with its closing parenthesis, or of the whole text when no
group is open. `names` are the group names in use. -/
def readGroup? : Nat → Flags → (isOpen : Bool) → (names : List (List Char)) → Progress →
    List Char → Option (Regex × List (List Char) × List Char)
  | 0, _, _, _, _, _ => none
  | n + 1, fl, isOpen, names, p, cs =>
    match fl.skip cs with
    | [] => if isOpen then none else some (p.close, names, [])
    | ')' :: r => if isOpen then some (p.close, names, r) else none
    | '|' :: r => readGroup? n fl isOpen names p.nextBranch r
    | '(' :: r =>
      match readGroupHead? fl r with
      | none => none
      | some (.setFlags fl, r) => readGroup? n fl isOpen names p.pushFlags r
      | some (.named name, r) =>
        if names.contains name then none
        else do
          let (a, names, r) ← readGroup? n fl true (name :: names) {} r
          readGroup? n fl isOpen names (p.push a) r
      | some (.group inner, r) => do
        let (a, names, r) ← readGroup? n inner true names {} r
        readGroup? n fl isOpen names (p.push a) r
    | '[' :: r => do
      let (s, r) ← readClass? fl n r
      if fl.unicode || !s.contains '\x80' then
        readGroup? n fl isOpen names (p.push (.set s)) r
      else none
    | '?' :: r => do
      let (lazily, r) := readLazy r
      readGroup? n fl isOpen names (← p.repeatLast? fl 0 (some 1) lazily) r
    | '*' :: r => do
      let (lazily, r) := readLazy r
      readGroup? n fl isOpen names (← p.repeatLast? fl 0 none lazily) r
    | '+' :: r => do
      let (lazily, r) := readLazy r
      readGroup? n fl isOpen names (← p.repeatLast? fl 1 none lazily) r
    | '\x7b' :: r => do
      let (low, high, r) ← readBounds? fl r
      let (lazily, r) := readLazy (fl.skip r)
      readGroup? n fl isOpen names (← p.repeatLast? fl low high lazily) r
    | '\\' :: r => do
      let (e, r) ← readEscape? fl r
      readGroup? n fl isOpen names (p.push (escape fl e)) r
    | '.' :: r => do
      let a ← dot? fl
      readGroup? n fl isOpen names (p.push a) r
    | '^' :: r => readGroup? n fl isOpen names (p.push (lineStart fl)) r
    | '$' :: r => readGroup? n fl isOpen names (p.push (lineEnd fl)) r
    | c :: r => readGroup? n fl isOpen names (p.push (literal fl c)) r

/-- The greatest weight of an expression; a heavier one is refused. It stands for the limit on the size
of what an expression is compiled to, ten mebibytes, with 32 bytes for each element: so the number is an
approximation, and only the expressions that are far from it are sure to be treated alike. -/
def maxWeight : Nat := 327680

/-- Reads a regular expression. Classes by a Unicode property are not read, and nothing is too deeply
nested. -/
def readRegex? (cs : List Char) : Option Regex := do
  let (r, _, _) ← readGroup? (2 * cs.length + 2) {} false [] {} cs
  if r.weight ≤ maxWeight then some r else none

end Grammarian.Pattern
