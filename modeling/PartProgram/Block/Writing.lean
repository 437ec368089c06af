import PartProgram.Block.Modal
import PartProgram.Settings

/-!
Writing a block anew from its words, in one canonical order.
-/

namespace PartProgram

namespace NumberFormat

/-- The digits of `n / 10 ^ places`, with all `places` digits after the point. -/
def fixedDigits (places n : Nat) : List Char :=
  let digits := (toString n).toList
  let padded := List.replicate (places + 1 - digits.length) '0' ++ digits
  if places = 0 then padded
  else
    let whole := padded.length - places
    padded.take whole ++ '.' :: padded.drop whole

/-- A fraction without zeros at its end, and no point when nothing is left of it. -/
def dropTrailingZeros (cs : List Char) : List Char :=
  if cs.contains '.' then
    ((cs.reverse.dropWhile (· = '0')).dropWhile (· = '.')).reverse
  else cs

/-- Zero is not written before a point. -/
def dropLeadingZero : List Char → List Char
  | '0' :: '.' :: cs => '.' :: cs
  | cs => cs

/-- The text of a number with the given count of last places; zero has no sign. -/
def ofTicks (format : NumberFormat) (n : Int) : List Char :=
  let digits := fixedDigits format.decimalPlaces n.natAbs
  let digits := if format.stripTrailingZeros then dropTrailingZeros digits else digits
  let digits := if format.leadingZeroSuppression then dropLeadingZero digits else digits
  if n < 0 then '-' :: digits else digits

/-- The text of a number: rounded to the format's places, in plain decimal notation. -/
def render {α : Type} [Scalar α] (format : NumberFormat) (value : α) : String :=
  match Scalar.ticks format.decimalPlaces value with
  | .count n => String.ofList (format.ofTicks n)
  | .infinite => "inf"
  | .undefined => "NaN"

end NumberFormat

/-- The words of a line that is to be written. -/
structure Draft (α : Type) where
  sequence : Option String := none
  motion : Option String := none
  gWords : List String := []
  axes : AxisWords α := .none
  i : Option α := none
  j : Option α := none
  feed : Option α := none
  spindle : Option α := none
  others : List String := []
  comment : Option String := none

namespace Draft

variable {α : Type}

/-- Nothing is to be written. -/
def isEmpty (d : Draft α) : Bool :=
  d.sequence.isNone && d.motion.isNone && d.gWords.isEmpty && !d.axes.any && d.i.isNone
    && d.j.isNone && d.feed.isNone && d.spindle.isNone && d.others.isEmpty && d.comment.isNone

/-- Sets the arc offset that a letter of either case names; any other letter names none. -/
def withOffset (d : Draft α) (letter : Char) (value : α) : Draft α :=
  match letter.toUpper with
  | 'I' => { d with i := some value }
  | 'J' => { d with j := some value }
  | _ => d

variable [Scalar α]

/-- The words as texts in canonical order: sequence number, motion, other `G` words, axes, arc
offsets, feed, spindle speed, the rest, comment. -/
def words (d : Draft α) (format : NumberFormat) : List String :=
  let number (letter : Char) (value : α) : String := letter.toString ++ format.render value
  d.sequence.toList ++ d.motion.toList ++ d.gWords
    ++ d.axes.toList.map (fun (axis, value) => number axis.letter value)
    ++ (d.i.map (number 'I')).toList ++ (d.j.map (number 'J')).toList
    ++ (d.feed.map (number 'F')).toList ++ (d.spindle.map (number 'S')).toList
    ++ d.others ++ d.comment.toList

def render (d : Draft α) (format : NumberFormat) : String := " ".intercalate (d.words format)

end Draft

namespace Block

variable {α : Type} [Scalar α]

/-- The words of a block. Feed and spindle speed are among them only when they have to be written to
take effect; gives also what is in effect afterwards. -/
def draft (b : Block α) (emitted : Emitted α) : Draft α × Emitted α :=
  let (feed, emitted) := emitted.writeFeed b.feed
  let (spindle, emitted) := emitted.writeSpindle b.spindle
  let draft : Draft α :=
    { sequence := b.extra.sequence
      motion := b.motion.code?.map fun code => s!"G{code}"
      gWords := b.extra.gWords
      axes := b.axes
      i := b.i
      j := b.j
      feed := if feed then some b.feed else none
      spindle := if spindle then some b.spindle else none
      others := b.extra.others
      comment := b.extra.comment }
  (draft, emitted)

/-- The line of a block: copied if nothing was changed, otherwise written from its words. -/
def write (format : NumberFormat) (emitted : Emitted α) (b : Block α) : Emitted α × String :=
  if b.modified then
    let (draft, emitted) := b.draft emitted
    (emitted, draft.render format)
  else (emitted.observe b.feed b.spindle, b.text)

end Block

end PartProgram
