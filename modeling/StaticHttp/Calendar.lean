import StaticHttp.Decimal
/-! The wall clock as HTTP writes it. Years are counted from March, so that the
day added in leap years comes last; 146097 days make 400 years. -/
namespace StaticHttp.Calendar

structure Date where
  year : Nat
  month : Nat
  day : Nat
  deriving DecidableEq, Repr

/- The days from 1 March of year 0 to 1 January 1970. -/
def epoch : Nat := 719468

def yearOfCycle (day : Nat) : Nat := (day - day / 1460 + day / 36524 - day / 146096) / 365

def dateOf (days : Nat) : Date :=
  let day := (days + epoch) % 146097
  let year := yearOfCycle day
  let dayOfYear := day - (365 * year + year / 4 - year / 100)
  let month := (5 * dayOfYear + 2) / 153
  { year := year + (days + epoch) / 146097 * 400 + (if month < 10 then 0 else 1)
    month := if month < 10 then month + 3 else month - 9
    day := dayOfYear - (153 * month + 2) / 5 + 1 }

def weekdays : List String := ["Sun", "Mon", "Tue", "Wed", "Thu", "Fri", "Sat"]

def months : List String :=
  ["Jan", "Feb", "Mar", "Apr", "May", "Jun", "Jul", "Aug", "Sep", "Oct", "Nov", "Dec"]

def weekday (days : Nat) : String := (weekdays[(days + 4) % 7]?).getD ""

def monthName (month : Nat) : String := (months[month - 1]?).getD ""

def httpDate (seconds : Nat) : Bytes :=
  let days := seconds / 86400
  let date := dateOf days
  ascii (weekday days) ++ ascii ", " ++ Decimal.padded 2 date.day ++ [Byte.space] ++
    ascii (monthName date.month) ++ [Byte.space] ++ Decimal.padded 4 date.year ++ [Byte.space] ++
    Decimal.padded 2 (seconds / 3600 % 24) ++ [Byte.colon] ++
    Decimal.padded 2 (seconds / 60 % 60) ++ [Byte.colon] ++
    Decimal.padded 2 (seconds % 60) ++ ascii " GMT"

end StaticHttp.Calendar
