import PartProgram.Number.Floating
import PartProgram.Toml.Value

/-!
Reading a document. Each reader takes the characters from some place on and gives what it read with
the characters after it, or nothing if the text is malformed there.
-/

namespace PartProgram.Toml

/-- A space or a tab. -/
def isSpace (c : Char) : Bool := c = ' ' || c = '\t'

def skipSpace (cs : List Char) : List Char := cs.dropWhile isSpace

/-- Characters that may stand in a comment or a literal string. -/
def isPlain (c : Char) : Bool := (0x20 ≤ c.toNat && c.toNat ≠ 0x7F) || c = '\t'

/-- The text after a comment, if it starts with one. -/
def skipComment : List Char → List Char
  | '#' :: cs => cs.dropWhile isPlain
  | cs => cs

/-- The text after a line end. -/
def newline? : List Char → Option (List Char)
  | '\n' :: cs => some cs
  | '\r' :: '\n' :: cs => some cs
  | _ => none

/-- What may stand after an entry: spaces, a comment, and the end of the line or of the text. -/
def endLine? (cs : List Char) : Option (List Char) :=
  match skipComment (skipSpace cs) with
  | [] => some []
  | cs => newline? cs

/-- The text after spaces, comments and line ends. The first argument bounds the lines. -/
def skipLines : Nat → List Char → List Char
  | 0, cs => cs
  | fuel + 1, cs =>
    let cs := skipComment (skipSpace cs)
    match newline? cs with
    | some cs => skipLines fuel cs
    | none => cs

/-! ### Strings -/

def hexValue? (c : Char) : Option Nat :=
  if c.isDigit then some (c.toNat - '0'.toNat)
  else if 'a' ≤ c && c ≤ 'f' then some (c.toNat - 'a'.toNat + 10)
  else if 'A' ≤ c && c ≤ 'F' then some (c.toNat - 'A'.toNat + 10)
  else none

/-- The value of digits in a base. -/
def digitsValue? (base : Nat) (cs : List Char) : Option Nat :=
  cs.foldl (fun n c => n.bind fun n =>
    ((hexValue? c).filter (· < base)).map (base * n + ·)) (some 0)

/-- The character with a code point given by hexadecimal digits. -/
def codePoint? (cs : List Char) : Option Char :=
  (digitsValue? 16 cs).bind fun n =>
    if n < 0xD800 ∨ (0xE000 ≤ n ∧ n < 0x110000) then some (Char.ofNat n) else none

/-- The character that a letter after a backslash stands for. -/
def escaped? : Char → Option Char
  | '"' => some '"'
  | '\\' => some '\\'
  | 'b' => some '\x08'
  | 'e' => some '\x1b'
  | 'f' => some '\x0c'
  | 'n' => some '\n'
  | 'r' => some '\r'
  | 't' => some '\t'
  | _ => none

/-- How many digits give a code point after this letter. -/
def codeLength? : Char → Option Nat
  | 'x' => some 2
  | 'u' => some 4
  | 'U' => some 8
  | _ => none

/-- Reads what follows a backslash. -/
def readEscape : List Char → Option (Char × List Char)
  | [] => none
  | c :: cs =>
    match codeLength? c with
    | some n =>
      if (cs.take n).length = n then (codePoint? (cs.take n)).map (·, cs.drop n) else none
    | none => (escaped? c).map (·, cs)

/-- The text after spaces and line ends. -/
def dropBlank : List Char → List Char
  | '\r' :: '\n' :: cs => dropBlank cs
  | c :: cs => if isSpace c || c = '\n' then dropBlank cs else c :: cs
  | [] => []

/-- The text after a backslash at the end of a line: the next character that is not blank follows. -/
def lineJoin? (cs : List Char) : Option (List Char) := (newline? (skipSpace cs)).map dropBlank

/-- The rest of a string on one line; `acc` holds what was read, reversed. -/
def readBasic : Nat → List Char → List Char → Option (String × List Char)
  | 0, _, _ => none
  | _ + 1, acc, '"' :: cs => some (String.ofList acc.reverse, cs)
  | fuel + 1, acc, '\\' :: cs =>
    (readEscape cs).bind fun (c, cs) => readBasic fuel (c :: acc) cs
  | fuel + 1, acc, c :: cs => if isPlain c then readBasic fuel (c :: acc) cs else none
  | _ + 1, _, [] => none

/-- The number of quotation marks that the text starts with. -/
def countQuotes (q : Char) (cs : List Char) : Nat := (cs.takeWhile (· = q)).length

/-- The rest of a string of several lines in quotation marks `q`. Three marks end it; up to two more
before them belong to it. Line ends are kept as they are written. Backslashes are escapes only
between double quotation marks. -/
def readMultiline (q : Char) : Nat → List Char → List Char → Option (String × List Char)
  | 0, _, _ => none
  | fuel + 1, acc, cs =>
    let quotes := countQuotes q cs
    if 3 ≤ quotes then
      let inside := Nat.min (quotes - 3) 2
      some (String.ofList (List.replicate inside q ++ acc).reverse, cs.drop (inside + 3))
    else match cs with
      | [] => none
      | '\r' :: '\n' :: cs => readMultiline q fuel ('\n' :: '\r' :: acc) cs
      | c :: cs =>
        if c = '\\' && q = '"' then
          match lineJoin? cs with
          | some cs => readMultiline q fuel acc cs
          | none => (readEscape cs).bind fun (c, cs) => readMultiline q fuel (c :: acc) cs
        else if isPlain c || c = '\n' then readMultiline q fuel (c :: acc) cs
        else none

/-- A string of several lines starts after a line end that follows its opening marks. -/
def dropNewline (cs : List Char) : List Char := (newline? cs).getD cs

/-- Reads a string in quotation marks; `none` if the text does not start with one. -/
def readString (fuel : Nat) : List Char → Option (String × List Char)
  | '"' :: '"' :: '"' :: cs => readMultiline '"' fuel [] (dropNewline cs)
  | '\'' :: '\'' :: '\'' :: cs => readMultiline '\'' fuel [] (dropNewline cs)
  | '"' :: cs => readBasic fuel [] cs
  | '\'' :: cs =>
    let body := cs.takeWhile fun c => isPlain c && c ≠ '\''
    match cs.dropWhile fun c => isPlain c && c ≠ '\'' with
    | '\'' :: cs => some (String.ofList body, cs)
    | _ => none
  | _ => none

/-! ### Keys -/

def isBare (c : Char) : Bool := c.isAlphanum || c = '-' || c = '_'

/-- Reads one part of a key: a bare word or a string on one line. -/
def readName (fuel : Nat) (cs : List Char) : Option (String × List Char) :=
  match cs with
  | '"' :: '"' :: '"' :: _ | '\'' :: '\'' :: '\'' :: _ => none
  | '"' :: _ | '\'' :: _ => readString fuel cs
  | _ =>
    let word := cs.takeWhile isBare
    if word.isEmpty then none else some (String.ofList word, cs.dropWhile isBare)

/-- Reads names with their dots and the spaces around them. -/
def readNames : Nat → List Char → Option (List String × List Char)
  | 0, _ => none
  | fuel + 1, cs =>
    (readName fuel (skipSpace cs)).bind fun (name, cs) =>
      match skipSpace cs with
      | '.' :: cs => (readNames fuel cs).map fun (names, cs) => (name :: names, cs)
      | cs => some ([name], cs)

/-- How many names a key may have, and how deep arrays and inline tables may be nested. -/
def maxDepth : Nat := 80

/-- Reads a key of at most `maxDepth` names. -/
def readKey (fuel : Nat) (cs : List Char) : Option (List String × List Char) :=
  (readNames fuel cs).filter (·.1.length ≤ maxDepth)

/-! ### Numbers, dates and times -/

/-- Digits with single underscores between them, without the underscores. -/
def digits? (isDigit : Char → Bool) (cs : List Char) : Option (List Char) :=
  let parts := cs.splitOn '_'
  if parts.all fun part => !part.isEmpty && part.all isDigit then some parts.flatten else none

/-- Decimal digits without a zero in front of others. -/
def wholeDigits? (cs : List Char) : Option (List Char) :=
  (digits? Char.isDigit cs).filter fun ds => !(ds.head? == some '0' && 1 < ds.length)

/-- An integer in a base that a letter after a zero gives. -/
def basedInteger? : List Char → Option Int
  | '0' :: 'x' :: cs => based 16 cs
  | '0' :: 'o' :: cs => based 8 cs
  | '0' :: 'b' :: cs => based 2 cs
  | _ => none
where
  based (base : Nat) (cs : List Char) : Option Int :=
    let isDigit (c : Char) : Bool := (hexValue? c).any (· < base)
    ((digits? isDigit cs).bind (digitsValue? base)).map fun n => (n : Int)

/-- An exponent with its mark; the empty text is no exponent. -/
def exponent? : List Char → Option (List Char)
  | [] => some []
  | c :: cs =>
    if c = 'e' || c = 'E' then
      let (sign, cs) := match cs with
        | '+' :: cs => (['+'], cs)
        | '-' :: cs => (['-'], cs)
        | cs => ([], cs)
      (digits? Char.isDigit cs).map fun ds => 'e' :: sign ++ ds
    else none

/-- A float: whole digits with a fraction, an exponent or both. -/
def float? (negative : Bool) (cs : List Char) : Option Toml :=
  let isMark (c : Char) : Bool := c = '.' || c = 'e' || c = 'E'
  let rest := cs.dropWhile fun c => !isMark c
  let parts : Option (List Char × List Char) := match rest with
    | '.' :: rest =>
      let isExponent (c : Char) : Bool := c = 'e' || c = 'E'
      (digits? Char.isDigit (rest.takeWhile fun c => !isExponent c)).map fun ds =>
        ('.' :: ds, rest.dropWhile fun c => !isExponent c)
    | rest => some ([], rest)
  parts.bind fun (fraction, rest) =>
    (wholeDigits? (cs.takeWhile fun c => !isMark c)).bind fun whole =>
      (exponent? rest).bind fun exponent =>
        (Decimal.read? (whole ++ fraction ++ exponent)).bind fun d =>
          let x := Binary64.ofDecimal { d with negative }
          some (if x.isFinite then .float x else .overflow)

/-- A number of exactly `n` digits that lies between two bounds. -/
def field? (n lo hi : Nat) (cs : List Char) : Option (Nat × List Char) :=
  let ds := cs.take n
  if ds.length = n && ds.all Char.isDigit then
    let v := Decimal.valueOf ds
    if lo ≤ v && v ≤ hi then some (v, cs.drop n) else none
  else none

/-- The text after a given character. -/
def expect? (c : Char) : List Char → Option (List Char)
  | [] => none
  | d :: cs => if d = c then some cs else none

def daysOfMonth (year month : Nat) : Nat :=
  match month with
  | 2 => if year % 4 = 0 && (year % 100 ≠ 0 || year % 400 = 0) then 29 else 28
  | 4 | 6 | 9 | 11 => 30
  | _ => 31

/-- The text after a date. -/
def skipDate? (cs : List Char) : Option (List Char) := do
  let (year, cs) ← field? 4 0 9999 cs
  let cs ← expect? '-' cs
  let (month, cs) ← field? 2 1 12 cs
  let cs ← expect? '-' cs
  let (_, cs) ← field? 2 1 (daysOfMonth year month) cs
  return cs

/-- The text after a time of day; seconds and their fraction may be missing. -/
def skipTime? (cs : List Char) : Option (List Char) := do
  let (_, cs) ← field? 2 0 23 cs
  let cs ← expect? ':' cs
  let (_, cs) ← field? 2 0 59 cs
  match cs with
  | ':' :: cs =>
    let (_, cs) ← field? 2 0 60 cs
    match cs with
    | '.' :: cs =>
      if (cs.takeWhile Char.isDigit).isEmpty then none else return cs.dropWhile Char.isDigit
    | cs => return cs
  | cs => return cs

/-- The text after an offset from universal time, if there is one. -/
def skipOffset? : List Char → Option (List Char)
  | 'Z' :: cs | 'z' :: cs => some cs
  | '+' :: cs | '-' :: cs => do
    let (_, cs) ← field? 2 0 23 cs
    let cs ← expect? ':' cs
    let (_, cs) ← field? 2 0 59 cs
    return cs
  | cs => some cs

/-- The whole text is a date, a time, or both. -/
def isTime (cs : List Char) : Bool :=
  (skipTime? cs).any List.isEmpty ||
    (skipDate? cs).any fun rest => match rest with
      | [] => true
      | c :: rest =>
        (c = 'T' || c = 't' || c = ' ') && ((skipTime? rest).bind skipOffset?).any List.isEmpty

/-- The meaning of a word that is neither a string nor a bracketed group. -/
def scalar? (word : List Char) : Option Toml :=
  if word = "true".toList then some (.bool true)
  else if word = "false".toList then some (.bool false)
  else if isTime word then some .time
  else
    let (negative, body) := Decimal.splitSign word
    if body = "inf".toList then
      some (.float (Float.ofBits (if negative then 0xFFF0000000000000 else 0x7FF0000000000000)))
    else if body = "nan".toList then some (.float (Float.ofBits 0x7FF8000000000000))
    else match wholeDigits? body with
      | some ds =>
        let n : Int := Decimal.valueOf ds
        some (.integer (if negative then -n else n))
      | none => ((basedInteger? word).map .integer).or (float? negative body)

def isScalarChar (c : Char) : Bool := c.isAlphanum || c = '_' || c = '-' || c = '+' || c = '.' || c = ':'

/-- Reads a word; a date may be followed by a space and a time. -/
def readScalar (cs : List Char) : Option (Toml × List Char) :=
  let word := cs.takeWhile isScalarChar
  let rest := cs.dropWhile isScalarChar
  let time := match rest with
    | ' ' :: more =>
      if (skipDate? word).any List.isEmpty && (more.head?.any Char.isDigit) then
        some (more.takeWhile isScalarChar, more.dropWhile isScalarChar)
      else none
    | _ => none
  match time with
  | some (more, rest) => (scalar? (word ++ ' ' :: more)).map (·, rest)
  | none => (scalar? word).map (·, rest)

/-! ### Values and documents -/

mutual

/-- Reads a value that may be nested `depth` levels deep. The first argument bounds the steps. -/
def readValue : Nat → (depth : Nat) → List Char → Option (Toml × List Char)
  | 0, _, _ => none
  | fuel + 1, depth, cs =>
    match cs, depth with
    | '[' :: cs, depth + 1 => readItems fuel depth [] cs
    | '\x7b' :: cs, depth + 1 => readMembers fuel depth [] cs
    | '"' :: _, _ | '\'' :: _, _ => (readString fuel cs).map fun (s, cs) => (.string s, cs)
    | _, _ => readScalar cs

/-- Reads the items of an array up to its closing bracket. A comma may follow the last. -/
def readItems : Nat → (depth : Nat) → List Toml → List Char → Option (Toml × List Char)
  | 0, _, _, _ => none
  | fuel + 1, depth, acc, cs =>
    match skipLines fuel cs with
    | ']' :: cs => some (.array acc.reverse, cs)
    | cs =>
      match readValue fuel depth cs with
      | none => none
      | some (item, cs) =>
        match skipLines fuel cs with
        | ',' :: cs => readItems fuel depth (item :: acc) cs
        | ']' :: cs => some (.array (item :: acc).reverse, cs)
        | _ => none

/-- Reads the entries of an inline table up to its closing brace. Line ends may stand between all
parts of an entry but within its key, and a comma may follow the last entry. -/
def readMembers : Nat → (depth : Nat) → Entries → List Char → Option (Toml × List Char)
  | 0, _, _, _ => none
  | fuel + 1, depth, entries, cs =>
    match skipLines fuel cs with
    | '\x7d' :: cs => some (.table (Node.values entries), cs)
    | cs =>
      match readKey fuel cs with
      | none => none
      | some (key, cs) =>
        match skipLines fuel cs with
        | '=' :: cs =>
          match readValue fuel depth (skipLines fuel cs) with
          | none => none
          | some (value, cs) =>
            match entries.insert key value with
            | none => none
            | some entries =>
              match skipLines fuel cs with
              | ',' :: cs => readMembers fuel depth entries cs
              | '\x7d' :: cs => some (.table (Node.values entries), cs)
              | _ => none
        | _ => none

end

/-- Reads what is between the brackets of a header; gives its path without the last name, and the
last name. -/
def readHeader (fuel : Nat) (closing : String) (cs : List Char) :
    Option (List String × String × List Char) :=
  (readKey fuel cs).bind fun (key, cs) =>
    match key.getLast? with
    | none => none
    | some name =>
      if closing.toList.isPrefixOf cs then
        some (key.dropLast, name, cs.drop closing.length)
      else none

/-- Reads the lines of a document into the table that the last header opened. -/
def readEntries : Nat → Entries → List String → List Char → Option Entries
  | 0, _, _, _ => none
  | fuel + 1, root, path, cs =>
    match skipLines fuel cs with
    | [] => some root
    | '[' :: '[' :: cs =>
      (readHeader fuel "]]" cs).bind fun (outer, name, cs) =>
        (Entries.within (·.openLast name true) root outer).bind fun root =>
          (endLine? cs).bind fun cs => readEntries fuel root (outer ++ [name]) cs
    | '[' :: cs =>
      (readHeader fuel "]" cs).bind fun (outer, name, cs) =>
        (Entries.within (·.openLast name false) root outer).bind fun root =>
          (endLine? cs).bind fun cs => readEntries fuel root (outer ++ [name]) cs
    | cs =>
      match readKey fuel cs with
      | some (key, '=' :: cs) =>
        (readValue fuel maxDepth (skipSpace cs)).bind fun (value, cs) =>
          (Entries.within (·.insert key value) root path).bind fun root =>
            (endLine? cs).bind fun cs => readEntries fuel root path cs
      | _ => none

/-- A byte order mark at the start of a text means nothing. -/
def dropMark : List Char → List Char
  | '\ufeff' :: cs => cs
  | cs => cs

/-- Reads a document. Every step takes a character, so twice the length of the text bounds them. -/
def read? (text : String) : Option (List (String × Toml)) :=
  let cs := dropMark text.toList
  (readEntries (2 * cs.length + 2) [] [] cs).map Node.values

end PartProgram.Toml
