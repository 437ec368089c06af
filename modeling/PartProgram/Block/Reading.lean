import PartProgram.Block.Modal
import PartProgram.Text.Blank

/-!
Reading one line of a program. Reading never fails: a word whose value is no number counts as absent
and the rest of the line is still read.
-/

namespace PartProgram

/-- A line taken apart: its code in upper case, and its comments with their delimiters. -/
structure Content where
  code : List Char
  comments : List (List Char)
  deriving DecidableEq, Repr

namespace Content

/-- What the characters of a line are read as. -/
inductive Zone where
  | code
  /-- Up to the next closing parenthesis. -/
  | group
  /-- Up to the end of the line. -/
  | rest
  deriving DecidableEq, Repr

def empty : Content := ⟨[], []⟩

def addCode (c : Char) (content : Content) : Content :=
  { content with code := c.toUpper :: content.code }

/-- Puts a character in front of the first comment. -/
def addComment (c : Char) (content : Content) : Content :=
  match content.comments with
  | [] => { content with comments := [[c]] }
  | text :: others => { content with comments := (c :: text) :: others }

/-- Opens a comment in front of the others. -/
def openComment (content : Content) : Content :=
  { content with comments := [] :: content.comments }

/-- Splits a line into code and comments. In a comment zone the first comment of the result is the
rest of the comment being read. -/
def split : Zone → List Char → Content
  | .code, [] => empty
  | .group, [] | .rest, [] => empty.openComment
  | .code, c :: cs =>
    if c = '(' then (split .group cs).addComment c
    else if c = ';' then (split .rest cs).addComment c
    else (split .code cs).addCode c
  | .group, c :: cs =>
    if c = ')' then (split .code cs).openComment.addComment c
    else (split .group cs).addComment c
  | .rest, c :: cs => (split .rest cs).addComment c

/-- A line that starts with a percent sign has neither code nor comments. -/
def ofLine (line : String) : Content :=
  match Text.trim line.toList with
  | '%' :: _ => empty
  | cs => split .code cs

/-- The comments as one text, if there are any. -/
def comment? (content : Content) : Option String :=
  if content.comments.isEmpty then none
  else some (" ".intercalate (content.comments.map String.ofList))

end Content

/-- A letter with the characters that make its value. -/
structure Word where
  letter : Char
  value : List Char
  deriving DecidableEq, Repr

namespace Word

/-- Characters that a value is made of. -/
def isValueChar (c : Char) : Bool := c.isDigit || c = '.' || c = '-' || c = '+'

/-- The words of a line of code. A value follows its letter, possibly after spaces; what is neither
letter nor value separates words. -/
def ofCode : List Char → List Word
  | [] => []
  | c :: cs =>
    if c.isAlpha then ⟨c, (cs.dropWhile (· = ' ')).takeWhile isValueChar⟩ :: ofCode cs
    else ofCode cs

/-- The word as it stands on a line written anew. -/
def text (w : Word) : String := String.ofList (w.letter :: w.value)

variable {α : Type} [Scalar α]

/-- The number a word carries, if its value is one and is finite. -/
def number? (w : Word) : Option α :=
  ((Decimal.read? w.value).map Scalar.ofDecimal).filter Scalar.isFinite

variable (α) in
/-- The code a word carries, if its value is a whole number that fits. -/
def code? (w : Word) : Option Nat :=
  (Decimal.read? w.value).bind fun d => Scalar.code? (Scalar.ofDecimal d : α)

end Word

/-- The words of one line that are not modal. -/
structure LineWords (α : Type) where
  axes : AxisWords α := .none
  i : Option α := none
  j : Option α := none
  machineFrame : Bool := false
  extra : ExtraWords := {}

namespace LineWords

variable {α : Type} (words : LineWords α)

def addG (text : String) : LineWords α :=
  { words with extra := { words.extra with gWords := words.extra.gWords ++ [text] } }

def addOther (text : String) : LineWords α :=
  { words with extra := { words.extra with others := words.extra.others ++ [text] } }

end LineWords

section

variable {α : Type} [Scalar α]

/-- The effect of a `G` word: it selects a motion, or it is kept and may select distances. -/
def applyG (w : Word) (modal : Modal α) (line : LineWords α) : Modal α × LineWords α :=
  let code := w.code? α
  match code.bind Motion.ofCode? with
  | some motion =>
    ({ modal with motion, containsArc := modal.containsArc || motion.isArc }, line)
  | none =>
    let line := line.addG w.text
    match code with
    | some 90 => ({ modal with absolute := true }, line)
    | some 91 => ({ modal with absolute := false, containsRelative := true }, line)
    | some 53 => (modal, { line with machineFrame := true })
    | _ => (modal, line)

/-- The `M` codes that steer a program. -/
def isSteering (code : Nat) : Bool := code = 2 || code = 30 || code = 98 || code = 99

/-- The effect of one word on the modal state and on the words of the line. A later word of a kind
replaces an earlier one; a malformed feed, spindle or `M` word changes nothing. -/
def applyWord (state : Modal α × LineWords α) (w : Word) : Modal α × LineWords α :=
  let (modal, line) := state
  match w.letter with
  | 'G' => applyG w modal line
  | 'I' => (modal, { line with i := w.number? })
  | 'J' => (modal, { line with j := w.number? })
  | 'F' => ({ modal with feed := w.number?.getD modal.feed }, line)
  | 'S' => ({ modal with spindle := w.number?.getD modal.spindle }, line)
  | 'M' =>
    let m := ((w.code? α).filter isSteering).or modal.codes.m
    ({ modal with codes := { modal.codes with m } }, line.addOther w.text)
  | 'P' => ({ modal with codes := { modal.codes with p := w.code? α } }, line.addOther w.text)
  | 'O' => ({ modal with codes := { modal.codes with o := w.code? α } }, line.addOther w.text)
  | 'L' => ({ modal with codes := { modal.codes with l := w.code? α } }, line.addOther w.text)
  | 'N' => (modal, { line with extra := { line.extra with sequence := some w.text } })
  | letter =>
    match Axis.ofLetter? letter with
    | some axis => (modal, { line with axes := line.axes.set axis w.number? })
    | none => (modal, line.addOther w.text)

/-- The call that a line makes: `M98` with a body named by `P`, run `L` times and at least once. -/
def LineCodes.call? (codes : LineCodes) : Option Call :=
  match codes.m, codes.p with
  | some 98, some id => some ⟨id, max (codes.l.getD 1) 1⟩
  | _, _ => none

namespace Block

/-- Reads a line under the modal state left by the lines before it. The block has the modes in
effect after the line. -/
def read (number : Nat) (line : String) (modal : Modal α) : Modal α × Block α :=
  let content := Content.ofLine line
  let start : Modal α × LineWords α := ({ modal with codes := {} }, {})
  let (modal, words) := (Word.ofCode content.code).foldl applyWord start
  let block : Block α :=
    { inert number line with
      motion := modal.motion
      axes := words.axes
      i := words.i
      j := words.j
      feed := modal.feed
      spindle := modal.spindle
      absolute := modal.absolute
      machineFrame := words.machineFrame
      call := modal.codes.call?
      label := modal.codes.o
      returns := modal.codes.m == some 99
      programEnd := modal.codes.m == some 2 || modal.codes.m == some 30
      extra := { words.extra with comment := content.comment? } }
  (modal, block)

end Block

end

end PartProgram
