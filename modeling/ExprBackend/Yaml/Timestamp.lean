/-!
# Dates and times

A date of a year of four digits, a month and a day, alone or with a time of day. Behind a `T` the
time has a zone, behind spaces it has none.
-/

namespace ExprBackend.Yaml.Timestamp

/-- A number of one or two digits and the rest. -/
def shortNumber? : List Char → Option (Nat × List Char)
  | a :: b :: cs =>
    if a.isDigit then
      if b.isDigit then some (10 * (a.toNat - '0'.toNat) + (b.toNat - '0'.toNat), cs)
      else some (a.toNat - '0'.toNat, b :: cs)
    else none
  | [a] => if a.isDigit then some (a.toNat - '0'.toNat, []) else none
  | [] => none

def expect? (x : Char) : List Char → Option (List Char)
  | c :: cs => if c = x then some cs else none
  | [] => none

def isLeap (year : Nat) : Bool := year % 4 = 0 && (year % 100 ≠ 0 || year % 400 = 0)

def daysIn (year month : Nat) : Nat :=
  if month = 2 then (if isLeap year then 29 else 28)
  else if [4, 6, 9, 11].contains month then 30
  else 31

/-- A day that exists, and the rest. -/
def date? (cs : List Char) : Option (List Char) := do
  let digits := cs.takeWhile Char.isDigit
  if digits.length ≠ 4 then none
  else
    let year := digits.foldl (fun n d => 10 * n + (d.toNat - '0'.toNat)) 0
    let cs ← expect? '-' (cs.drop 4)
    let (month, cs) ← shortNumber? cs
    let cs ← expect? '-' cs
    let (day, cs) ← shortNumber? cs
    if 1 ≤ month && month ≤ 12 && 1 ≤ day && day ≤ daysIn year month then some cs else none

/-- Over a fraction of a second, which needs a digit. -/
def skipFraction : List Char → List Char
  | p :: d :: cs =>
    if (p = '.' || p = ',') && d.isDigit then cs.dropWhile Char.isDigit else p :: d :: cs
  | cs => cs

/-- Hour, minute and second, and the rest. -/
def time? (cs : List Char) : Option (List Char) := do
  let (hour, cs) ← shortNumber? cs
  let cs ← expect? ':' cs
  let (minute, cs) ← shortNumber? cs
  let cs ← expect? ':' cs
  let (second, cs) ← shortNumber? cs
  if hour < 24 && minute < 60 && second < 60 then some (skipFraction cs) else none

/-- A `Z`, or a sign and the hours and minutes in two digits each. -/
def isZone : List Char → Bool
  | ['Z'] => true
  | [sign, a, b, ':', c, d] =>
    (sign = '+' || sign = '-') && [a, b, c, d].all Char.isDigit &&
      10 * (a.toNat - '0'.toNat) + (b.toNat - '0'.toNat) ≤ 24 &&
      10 * (c.toNat - '0'.toNat) + (d.toNat - '0'.toNat) ≤ 60
  | _ => false

def isTimestamp (cs : List Char) : Bool :=
  match date? cs with
  | none => false
  | some [] => true
  | some (c :: rest) =>
    if c = 'T' || c = 't' then (time? rest).any isZone
    else if c = ' ' then (time? (rest.dropWhile (· = ' '))).any List.isEmpty
    else false

end ExprBackend.Yaml.Timestamp
