/-
Operations on text and on times that belong to the operating system, not to this
repository.

Folding depends on the character tables of the device, so the model takes it as a
parameter.  What the code relies on is in the shape of the fields: `CompareF` compares
folded texts, so that it is zero exactly when they are the same, `TrimAll` is a function
of the text, and `FindF` and `MatchF` return a position or `KErrNotFound`.  A `TTime` is
a number of microseconds; which one a date is, and how long a month is, the calendar of
the platform says.

`Platform.ascii` is the platform restricted to ASCII and to the Gregorian calendar, for
running the model.
-/
import OsSecurity.E32

namespace OsSecurity

/-- A `TDateTime`: the month and the day count from zero. -/
structure TDateTime where
  iYear : Int
  iMonth : Int
  iDay : Int
  iHour : Int
  iMinute : Int
  iSecond : Int
  iMicroSecond : Int

structure Platform where
  /-- `TDes16::TrimAll` -/
  trimAll : Text → Text
  /-- What `TDesC16::CompareF` compares. -/
  folded : Text → Text
  /-- `TDesC16::FindF` -/
  findF : Text → Text → Int
  /-- `TDesC16::MatchF` -/
  matchF : Text → Text → Int
  /-- `Time::DaysInMonth` -/
  daysInMonth : Int → Int → Int
  /-- `TTime(const TDateTime&)` -/
  time : TDateTime → Int

namespace Platform

/-- White space at either end goes, and a run of it inside becomes one space. -/
def asciiTrimAll (aText : Text) : Text :=
  let squeezed := aText.foldr
    (fun c rest =>
      if c = 32 ∨ (9 ≤ c ∧ c ≤ 13) then
        match rest with
        | [] => []
        | d :: ds => if d = 32 then d :: ds else 32 :: d :: ds
      else c :: rest) ([] : Text)
  match squeezed with
  | [] => []
  | d :: ds => if d = 32 then ds else d :: ds

def asciiFolded (aText : Text) : Text :=
  aText.map fun c => if 65 ≤ c ∧ c ≤ 90 then c + 32 else c

/-- The first position at which the pattern stands. -/
def asciiFind (aPattern : Text) : Text → Option Nat
  | [] => if aPattern = [] then some 0 else none
  | c :: cs =>
    if (asciiFolded aPattern).isPrefixOf (asciiFolded (c :: cs)) then some 0
    else (asciiFind aPattern cs).map (· + 1)

/-- Wild card matching: `*` stands for any text and `?` for any character. -/
def asciiMatches : Text → Text → Bool
  | [], aText => aText.isEmpty
  | p :: ps, aText =>
    if p = 42 then aText.tails.any (asciiMatches ps)
    else match aText with
      | [] => false
      | c :: cs => (p = 63 ∨ p = c) && asciiMatches ps cs

def isLeapYear (aYear : Int) : Bool :=
  aYear % 4 = 0 ∧ (aYear % 100 ≠ 0 ∨ aYear % 400 = 0)

def gregorianDaysInMonth (aYear aMonth : Int) : Int :=
  if aMonth = 1 then (if isLeapYear aYear then 29 else 28)
  else if aMonth = 3 ∨ aMonth = 5 ∨ aMonth = 8 ∨ aMonth = 10 then 30
  else 31

/-- Microseconds since the start of the year 0. -/
def gregorianTime (d : TDateTime) : Int :=
  let earlierYears := d.iYear * 365 + (d.iYear + 3) / 4 - (d.iYear + 99) / 100 + (d.iYear + 399) / 400
  let earlierMonths := ((List.range d.iMonth.toNat).map fun m =>
    gregorianDaysInMonth d.iYear m).sum
  let hours := (earlierYears + earlierMonths + d.iDay) * 24 + d.iHour
  ((hours * 60 + d.iMinute) * 60 + d.iSecond) * 1000000 + d.iMicroSecond

def ascii : Platform where
  trimAll := asciiTrimAll
  folded := asciiFolded
  findF aText aPattern :=
    match asciiFind aPattern aText with
    | some n => n
    | none => KErrNotFound
  matchF aText aPattern :=
    if asciiMatches (asciiFolded aPattern) (asciiFolded aText) then 0 else KErrNotFound
  daysInMonth := gregorianDaysInMonth
  time := gregorianTime

end Platform

end OsSecurity
