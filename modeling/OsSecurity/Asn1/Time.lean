/-
Times: `utctimedec.cpp`, `gentimedec.cpp` and the choice between them in `X509time.cpp`.

Both read the digits of the date by position and ask the calendar of the platform what
moment it is.  A UTC time may leave out the seconds and has to end in `Z`; a generalized
time may also carry a fraction and an offset.
-/
import OsSecurity.Asn1.Decoders
import OsSecurity.Platform

namespace OsSecurity

/-- Whether the character is a decimal digit. -/
def isDigit (c : UInt8) : Bool := 48 ≤ c ∧ c ≤ 57

/-- Two characters as a decimal number, `(a - '0') * 10 + b - '0'`. -/
def twoDigits (a b : UInt8) : Int := ((a.toNat : Int) - 48) * 10 + ((b.toNat : Int) - 48)

/-- The ranges both decoders check before they build the `TDateTime`. -/
def TDateTime.inRange (pf : Platform) (d : TDateTime) : Bool :=
  (0 ≤ d.iMonth ∧ d.iMonth ≤ 11) ∧ (0 ≤ d.iDay ∧ d.iDay < pf.daysInMonth d.iYear d.iMonth) ∧
    (0 ≤ d.iHour ∧ d.iHour < 24) ∧ (0 ≤ d.iMinute ∧ d.iMinute < 60) ∧
      0 ≤ d.iSecond ∧ d.iSecond < 60

namespace TASN1DecUTCTime

/-- The seconds, and what is left behind them. -/
def seconds : Bytes → Int × Bytes
  | a :: b :: rest => if isDigit a then (twoDigits a b, rest) else (0, a :: b :: rest)
  | rest => (0, rest)

def getTimeL (pf : Platform) (aSource : Bytes) : Leaving Int :=
  match aSource with
  | y1 :: y2 :: m1 :: m2 :: d1 :: d2 :: h1 :: h2 :: n1 :: n2 :: c :: cs =>
    if ¬ [y1, y2, m1, m2, d1, d2, h1, h2, n1, n2].all isDigit then leave KErrArgument
    else
      let (Second, rest) := seconds (c :: cs)
      match rest with
      | [] => leave KErrArgument
      | z :: _ =>
        if z = 90 then
          let Year := twoDigits y1 y2
          let D : TDateTime :=
            { iYear := Year + if Year < 50 then 2000 else 1900
              iMonth := twoDigits m1 m2 - 1
              iDay := twoDigits d1 d2 - 1
              iHour := twoDigits h1 h2
              iMinute := twoDigits n1 n2
              iSecond := Second
              iMicroSecond := 0 }
          if D.inRange pf then .ok (pf.time D) else leave KErrArgument
        -- an offset
        else if z = 43 ∨ z = 45 then leave KErrNotSupported
        else leave KErrArgument
  | _ => leave KErrArgument

def decodeDERL (pf : Platform) (aGen : TASN1DecGeneric) : Leaving Int := do
  getTimeL pf (← aGen.getContentDER)

end TASN1DecUTCTime

namespace TASN1DecGeneralizedTime

/-- The `while` loop over the characters from the fifteenth on, with its three counters. -/
def checkExtra (countDot countOperator countZ : Nat) : Bytes → Leaving Unit
  | [] => .ok ()
  | c :: rest =>
    -- '.' can't appear more than once and at least one digit should follow
    if c = 46 then
      if 1 < countDot + 1 ∨ ¬ (rest.head?.any isDigit) then leave KErrArgument
      else checkExtra (countDot + 1) countOperator countZ rest
    -- '+' and '-': four digits should follow, and then nothing but 'Z'
    else if c = 43 ∨ c = 45 then
      if 1 < countOperator + 1 ∨ rest.length < 4 ∨ ¬ (rest.take 4).all isDigit ∨
          5 < rest.length ∨ (rest.length = 5 ∧ rest.getLast? ≠ some 90) then leave KErrArgument
      else checkExtra countDot (countOperator + 1) countZ rest
    -- 'Z' must be the last
    else if c = 90 then
      if 1 < countZ + 1 ∨ rest ≠ [] then leave KErrArgument
      else checkExtra countDot countOperator (countZ + 1) rest
    else if ¬ isDigit c then leave KErrArgument
    else checkExtra countDot countOperator countZ rest

/-- Up to `n` digits of the fraction as microseconds, and what is left behind them. -/
def fraction : Nat → Int → Bytes → Int × Bytes
  | 0, _, rest => (0, rest)
  | _, _, [] => (0, [])
  | n + 1, multiplier, c :: rest =>
    if isDigit c then
      let (MicroSecond, rest) := fraction n (multiplier / 10) rest
      (((c.toNat : Int) - 48) * multiplier + MicroSecond, rest)
    else (0, c :: rest)

/-- The fraction of a second from position `Pos` on: the loop stops behind position 17. -/
def microSeconds (Pos : Nat) : Bytes → Int × Bytes
  | c :: rest => if c = 46 then fraction (17 - Pos) 100000 rest else (0, c :: rest)
  | [] => (0, [])

/-- What has to be added to get from the time written to universal time. -/
def offset : Bytes → Leaving Int
  | [] => .ok 0
  | c :: rest =>
    if c = 90 then .ok 0
    else if c = 43 ∨ c = 45 then
      match rest with
      | a :: b :: d :: e :: _ =>
        let offsetIntHours := twoDigits a b
        let offsetIntMinutes := twoDigits d e
        if offsetIntHours < 0 ∨ 23 < offsetIntHours ∨ offsetIntMinutes < 0 ∨
            59 < offsetIntMinutes then leave KErrArgument
        else
          let ahead := (offsetIntHours * 60 + offsetIntMinutes) * 60000000
          .ok (if c = 43 then -ahead else ahead)
      | _ => panic
    else leave KErrArgument

/-- `GetTimeL`, from the twelve digits every time has and what stands behind them. -/
def getTimeFromL (pf : Platform) (D : TDateTime) (rest : Bytes) : Leaving Int := do
  let (Pos, Second, rest) := match rest with
    | a :: b :: rest => (14, twoDigits a b, rest)
    | rest => (12, 0, rest)
  let D := { D with iSecond := Second }
  if ¬ D.inRange pf then
    leave KErrArgument
  let (MicroSecond, rest) := microSeconds Pos rest
  return pf.time { D with iMicroSecond := MicroSecond } + (← offset rest)

def getTimeL (pf : Platform) (aSource : Bytes) : Leaving Int :=
  match aSource with
  | y1 :: y2 :: y3 :: y4 :: m1 :: m2 :: d1 :: d2 :: h1 :: h2 :: n1 :: n2 :: c :: cs => do
    if ¬ [y1, y2, y3, y4, m1, m2, d1, d2, h1, h2, n1, n2].all isDigit then
      leave KErrArgument
    if cs ≠ [] ∧ ¬ ((c :: cs).take 2).all isDigit then
      leave KErrArgument
    checkExtra 0 0 0 ((c :: cs).drop 2)
    getTimeFromL pf
      { iYear := twoDigits y1 y2 * 100 + twoDigits y3 y4
        iMonth := twoDigits m1 m2 - 1
        iDay := twoDigits d1 d2 - 1
        iHour := twoDigits h1 h2
        iMinute := twoDigits n1 n2
        iSecond := 0
        iMicroSecond := 0 } (c :: cs)
  | _ => leave KErrArgument

def decodeDERL (pf : Platform) (aGen : TASN1DecGeneric) : Leaving Int := do
  getTimeL pf (← aGen.getContentDER)

end TASN1DecGeneralizedTime

namespace TASN1DecX509Time

def decodeContentsL (pf : Platform) (aSource : TASN1DecGeneric) : Leaving Int :=
  if aSource.tag = EASN1UTCTime then TASN1DecUTCTime.decodeDERL pf aSource
  else if aSource.tag = EASN1GeneralizedTime then TASN1DecGeneralizedTime.decodeDERL pf aSource
  else leave KErrArgument

end TASN1DecX509Time

end OsSecurity
