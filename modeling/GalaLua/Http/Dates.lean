import GalaLua.Http.Request

/-!
# Dates

`get_date` writes a date and `diff_date` compares two of them, part by part and as
strings where `parse_date` leaves them strings. What `os.date` makes of a time is
an argument.
-/

namespace GalaLua.Http

open Library.Lua

/-- The table of `os.date("*t")`; days and months count from zero. -/
structure Date where
  year : Nat
  month : Fin 12
  day : Fin 31
  wday : Fin 7
  hour : Fin 24
  min : Fin 60
  sec : Fin 60

def week : List Str := ["Sun.", "Mon.", "Tues.", "Wed.", "Thur.", "Fri.", "Sta."].map String.toList

def months : List Str :=
  ["Jan", "Feb", "Mar", "Apr", "May", "Jun", "Jul", "Aug", "Sept", "Oct", "Nov", "Dec"].map String.toList

/-- `NUM`: two digits. -/
def num (n : Nat) : Str := [(n / 10).digitChar, (n % 10).digitChar]

def blank : Str := [' ']

/-- The format of `get_date`. -/
def Date.toString (d : Date) : Str :=
  blank.intercalate [week.get d.wday, num (d.day + 1), months.get d.month, tostring d.year,
    [':'].intercalate [num d.hour, num d.min, num d.sec], "GMT".toList]

/-- `get_date(delay)`, in the time zone 8. -/
def getDate (osDate : Int → Date) (time : Int) (delay : Int) : Str := (osDate (time - 3600 * 8 + delay)).toString

/-- `split(s, "%s+")`. -/
def words (s : Str) : List Str := (s.splitOnP isspace).filter (· ≠ [])

structure DateItem where
  wday : Option Nat
  day : Option Str
  month : Option Nat
  year : Option Str
  hour : Option Str
  min : Option Str
  sec : Option Str
  deriving DecidableEq

def weekIndex : List (Str × Nat) :=
  [("Sun,", 1), ("Mon,", 2), ("Tues,", 3), ("Wed,", 4), ("Thur,", 5), ("Fri,", 6), ("Sta,", 7), ("Sun", 1), ("Mon", 2),
    ("Tues", 3), ("Wed", 4), ("Thur", 5), ("Fri", 6), ("Sta", 7)].map fun e => (e.1.toList, e.2)

def monthIndex : List (Str × Nat) := months.zipIdx 1

def parseDate (date : Str) : Res DateItem :=
  match words date with
  | wday :: day :: mon :: year :: clock :: _ =>
    let time := split ':' clock
    .ok ⟨weekIndex.lookup wday, some day, monthIndex.lookup mon, some year, time[0]?, time[1]?, time[2]?⟩
  | _ => .error "bad argument #1 to 'find' (string expected, got nil)"

/-- One turn of the comparison of `diff_date`. -/
def diffPart {α : Type} [LT α] [DecidableLT α] (a b : Option α) (next : Res Int) : Res Int :=
  match a, b with
  | some a, some b => if a < b then .ok (-1) else if b < a then .ok 1 else next
  | _, _ => .error "attempt to compare two nil values"

def DateItem.diff (a b : DateItem) : Res Int :=
  diffPart a.year b.year (diffPart a.month b.month (diffPart a.day b.day (diffPart a.hour b.hour
    (diffPart a.min b.min (diffPart a.sec b.sec (.ok 0))))))

def diffDate (date₁ date₂ : Str) : Res Int :=
  if date₁ = date₂ then .ok 0
  else do (← parseDate date₁).diff (← parseDate date₂)

example : diffDate "Sun. 27 Jul 2014 09:59:44 GMT".toList "Tues. 26 Aug 2014 09:59:44 GMT".toList = .ok (-1) := by
  decide

end GalaLua.Http
