import OneStep.DateTimeText

/-!
# Cron expressions, read twice

`CronField` and `CronSchedule` of the runtime, and `_cron_field_matches` and
`_cron_matches` of the control plane. A text is the list of its characters. A field is
a word, so that stripping it changes nothing; an alias is a single word. A timezone gives
the reading of its clock at an instant.
-/
namespace OneStep.CronFields
open DateTimeText

section Texts

/-- `str.isspace`. -/
def isSpace (c : Char) : Bool :=
  let n := c.toNat
  (9 ≤ n && n ≤ 13) || (28 ≤ n && n ≤ 32) || n == 0x85 || n == 0xA0 || n == 0x1680 ||
    (0x2000 ≤ n && n ≤ 0x200A) || n == 0x2028 || n == 0x2029 || n == 0x202F || n == 0x205F ||
    n == 0x3000

/-- The pieces between the separators. -/
def pieces (separates : Char → Bool) : List Char → List (List Char)
  | [] => [[]]
  | c::cs =>
    if separates c then []::pieces separates cs
    else
      match pieces separates cs with
      | [] => [[c]]
      | piece::rest => (c::piece)::rest

/-- `str.split()`. -/
def words (text : List Char) : List (List Char) := (pieces isSpace text).filter fun w => !w.isEmpty

/-- `str.split(",")`. -/
def chunks (field : List Char) : List (List Char) := pieces (· == ',') field

/-- `str.split(c, 1)` of a text with this character. -/
def cut (c : Char) (text : List Char) : List Char × List Char :=
  (text.takeWhile (· != c),(text.dropWhile (· != c)).drop 1)

/-- `str.lower`, of the characters an accepted expression has. -/
def lower (text : List Char) : List Char := text.map Char.toLower

/-- The code points of the decimal zeros. -/
def zeros : List ℕ :=
  [0x30,0x660,0x6F0,0x7C0,0x966,0x9E6,0xA66,0xAE6,0xB66,0xBE6,0xC66,0xCE6,0xD66,0xDE6,0xE50,0xED0,
    0xF20,0x1040,0x1090,0x17E0,0x1810,0x1946,0x19D0,0x1A80,0x1A90,0x1B50,0x1BB0,0x1C40,0x1C50,
    0xA620,0xA8D0,0xA900,0xA9D0,0xA9F0,0xAA50,0xABF0,0xFF10,0x104A0,0x10D30,0x11066,0x110F0,
    0x11136,0x111D0,0x112F0,0x11450,0x114D0,0x11650,0x116C0,0x11730,0x118E0,0x11950,0x11C50,
    0x11D50,0x11DA0,0x11F50,0x16A60,0x16AC0,0x16B50,0x1D7CE,0x1D7D8,0x1D7E2,0x1D7EC,0x1D7F6,
    0x1E140,0x1E2F0,0x1E4F0,0x1E950,0x1FBF0]

def digitOf (c : Char) : Option ℕ :=
  (zeros.find? fun z => decide (z ≤ c.toNat ∧ c.toNat < z+10)).map fun z => c.toNat-z

/-- Digits, with single underscores between them. -/
def readDigits : Bool → ℕ → List Char → Option ℕ
  | after,n,[] => if after then some n else none
  | after,n,c::cs =>
    if c = '_' then (if after then readDigits false n cs else none)
    else (digitOf c).bind fun d => readDigits true (10*n+d) cs

/-- `int` of a word. -/
def readInt (text : List Char) : Option ℤ :=
  match text with
  | [] => none
  | c::cs =>
    if c = '-' then (readDigits false 0 cs).map fun n => -(n : ℤ)
    else if c = '+' then (readDigits false 0 cs).map fun n => (n : ℤ)
    else (readDigits false 0 (c::cs)).map fun n => (n : ℤ)

end Texts

/-- `range(first, last + 1, step)`. -/
structure Span where
  first : ℤ
  last : ℤ
  step : ℤ
  deriving DecidableEq, Repr

def Span.contains (s : Span) (v : ℤ) : Bool :=
  decide (s.first ≤ v ∧ v ≤ s.last ∧ (v-s.first)%s.step = 0)

section Runtime

/-- What the constructor of `CronField` is given beside the text. -/
structure Setting where
  minimum : ℤ
  maximum : ℤ
  names : List (List Char × ℤ) := []
  sundayAsZero : Bool := false

/-- `_parse_value`. -/
def parseValue (setting : Setting) (text : List Char) : Option ℤ :=
  ((setting.names.lookup (lower text)).or (readInt text)).bind fun parsed =>
    let value := if setting.sundayAsZero ∧ parsed = 7 then 0 else parsed
    if value < setting.minimum ∨ setting.maximum < value then none else some value

def span (first last step : ℤ) : Option Span := if last < first then none else some ⟨first,last,step⟩

def parseRange (setting : Setting) (text : List Char) (step : ℤ) : Option Span :=
  (parseValue setting (cut '-' text).1).bind fun first =>
    (parseValue setting (cut '-' text).2).bind fun last => span first last step

/-- `_parse_chunk`; none when it raises. -/
def parseChunk (setting : Setting) (chunk : List Char) : Option Span :=
  if chunk = [] then none
  else if chunk = ['*'] then some ⟨setting.minimum,setting.maximum,1⟩
  else if '/' ∈ chunk then
    let base := (cut '/' chunk).1
    (readInt (cut '/' chunk).2).bind fun step =>
      if step ≤ 0 then none
      else if base = ['*'] then span setting.minimum setting.maximum step
      else if '-' ∈ base then parseRange setting base step
      else (parseValue setting base).bind fun first => span first setting.maximum step
  else if '-' ∈ chunk then parseRange setting chunk 1
  else (parseValue setting chunk).map fun value => ⟨value,value,1⟩

structure CronField where
  any : Bool
  values : List Span
  deriving DecidableEq, Repr

def CronField.matches (f : CronField) (v : ℤ) : Bool := f.values.any fun s => s.contains v

/-- The constructor of `CronField`; none when it raises. -/
def cronField (setting : Setting) (expression : List Char) : Option CronField :=
  ((chunks expression).mapM (parseChunk setting)).map fun values => ⟨expression == ['*'],values⟩

def monthNames : List (List Char × ℤ) :=
  [("jan".toList,1),("feb".toList,2),("mar".toList,3),("apr".toList,4),("may".toList,5),
    ("jun".toList,6),("jul".toList,7),("aug".toList,8),("sep".toList,9),("oct".toList,10),
    ("nov".toList,11),("dec".toList,12)]

def dowNames : List (List Char × ℤ) :=
  [("sun".toList,0),("mon".toList,1),("tue".toList,2),("wed".toList,3),("thu".toList,4),
    ("fri".toList,5),("sat".toList,6)]

def minutes : Setting := {minimum := 0, maximum := 59}

def hours : Setting := {minimum := 0, maximum := 23}

def daysOfMonth : Setting := {minimum := 1, maximum := 31}

def months : Setting := {minimum := 1, maximum := 12, names := monthNames}

def daysOfWeek : Setting := {minimum := 0, maximum := 6, names := dowNames, sundayAsZero := true}

def cronAliases : List (List Char × List Char) :=
  [("@hourly".toList,"0 * * * *".toList),("@daily".toList,"0 0 * * *".toList),
    ("@weekly".toList,"0 0 * * 0".toList),("@monthly".toList,"0 0 1 * *".toList),
    ("@yearly".toList,"0 0 1 1 *".toList)]

def fieldsOf (expression : List Char) : List (List Char) :=
  match words expression with
  | [word] => (cronAliases.lookup (lower word)).elim [word] words
  | fields => fields

structure CronSchedule where
  minute : CronField
  hour : CronField
  dayOfMonth : CronField
  month : CronField
  dayOfWeek : CronField
  deriving DecidableEq, Repr

/-- The constructor of `CronSchedule`; none when it raises. -/
def cronSchedule (expression : List Char) : Option CronSchedule :=
  match fieldsOf expression with
  | [minute,hour,dayOfMonth,month,dayOfWeek] => do
    let minute ← cronField minutes minute
    let hour ← cronField hours hour
    let dayOfMonth ← cronField daysOfMonth dayOfMonth
    let month ← cronField months month
    let dayOfWeek ← cronField daysOfWeek dayOfWeek
    return ⟨minute,hour,dayOfMonth,month,dayOfWeek⟩
  | _ => none

/-- `(datetime.weekday() + 1) % 7`: the first day of the calendar is a Monday. -/
def cronWeekday (dt : DateTime) : ℤ :=
  (daysBeforeYear dt.year+daysBeforeMonth dt.year dt.month+dt.day)%7

/-- `CronSchedule.matches`, with the timezone of the schedule. -/
def CronSchedule.matches (s : CronSchedule) (timezone : ℤ → DateTime) (instant : ℤ) : Bool :=
  let current := timezone instant
  if !s.minute.matches current.minute then false
  else if !s.hour.matches current.hour then false
  else if !s.month.matches current.month then false
  else
    let domMatch := s.dayOfMonth.matches current.day
    let dowMatch := s.dayOfWeek.matches (cronWeekday current)
    if s.dayOfMonth.any && s.dayOfWeek.any then true
    else if s.dayOfMonth.any then dowMatch
    else if s.dayOfWeek.any then domMatch
    else domMatch || dowMatch

end Runtime

section ControlPlane

/-- How the control plane reads a part: as a range, as a number, or not at all. -/
inductive Part where
  | range (s : Span)
  | number (n : ℤ)
  | unread
  deriving DecidableEq, Repr

/-- The base of a part and its step, which is none when it is refused. -/
def baseAndStep (part : List Char) : List Char × Option ℤ :=
  if '/' ∈ part then
    ((cut '/' part).1,(readInt (cut '/' part).2).filter fun step => decide (0 < step))
  else (part,some 1)

def readPart (minimum maximum : ℤ) (part : List Char) : Part :=
  let base := (baseAndStep part).1
  match (baseAndStep part).2 with
  | none => .unread
  | some step =>
    if base = ['*'] then .range ⟨minimum,maximum,step⟩
    else if '-' ∈ base then
      match readInt (cut '-' base).1,readInt (cut '-' base).2 with
      | some first,some last => .range ⟨first,last,step⟩
      | _,_ => .unread
    else (readInt base).elim .unread .number

/-- The loop over the parts: a part that is no range ends it. -/
def partsMatch (minimum maximum value : ℤ) : List (List Char) → Bool
  | [] => false
  | part::parts =>
    if part = [] then partsMatch minimum maximum value parts
    else
      match readPart minimum maximum part with
      | .unread => false
      | .number n => n == value
      | .range s => if s.contains value then true else partsMatch minimum maximum value parts

/-- `_cron_field_matches`. -/
def cronFieldMatches (field : List Char) (value minimum maximum : ℤ) : Bool :=
  if lower field = ['*'] then true else partsMatch minimum maximum value (chunks (lower field))

/-- `_cron_matches`. -/
def cronMatches (dt : DateTime) (expression : List Char) : Bool :=
  match words expression with
  | [minute,hour,dayOfMonth,month,dayOfWeek] =>
    let domAny := dayOfMonth == ['*']
    let dowAny := dayOfWeek == ['*']
    let domMatch := cronFieldMatches dayOfMonth dt.day 1 31
    let dowMatch := cronFieldMatches dayOfWeek (cronWeekday dt) 0 6
    let dayMatch :=
      if domAny && dowAny then true
      else if domAny then dowMatch
      else if dowAny then domMatch
      else domMatch || dowMatch
    cronFieldMatches minute dt.minute 0 59 && cronFieldMatches hour dt.hour 0 23 &&
      cronFieldMatches month dt.month 1 12 && dayMatch
  | _ => false

/-- `DEFAULT_MISSED_START_SCAN_LOOKBACK_LIMIT`. -/
def lookbackLimit : ℕ := 32

/-- `MISSED_START_SCAN_MAX_WINDOW`, in microseconds. -/
def maxWindow : ℤ := day

/-- The loop of `_iter_expected_cron_slots`, for some number of minutes. The candidates are
readings of the wall clock, a minute apart, whether the timezone has them or not; `asUtc`
is `candidate.astimezone(UTC)`. -/
def expectedCronSlots (expression : List Char) (reading : ℤ → DateTime) (asUtc : ℤ → ℤ) (now : ℤ) :
    ℕ → ℤ → ℕ → List ℤ
  | 0,_,_ => []
  | n+1,candidate,scanned =>
    if lookbackLimit ≤ scanned then []
    else if maxWindow < now-asUtc candidate then []
    else if cronMatches (reading candidate) expression then
      asUtc candidate::expectedCronSlots expression reading asUtc now n (candidate-60*second)
        (scanned+1)
    else expectedCronSlots expression reading asUtc now n (candidate-60*second) scanned

end ControlPlane

end OneStep.CronFields
