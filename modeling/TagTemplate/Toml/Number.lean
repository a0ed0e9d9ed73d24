import TagTemplate.Toml.Value

/-!
# Numbers, dates and times in TOML

Digits may be grouped by single underscores. A whole number fits 64 bits with
its sign and has no leading zeros unless it is written in base two, eight or
sixteen. A date has to be one of the calendar.
-/

namespace TagTemplate.Toml

/-- Digits with underscores between them, without the underscores, and the rest. -/
def grouped? (isDigit : Char → Bool) : Text → Option (Text × Text)
  | [] => none
  | c :: t =>
    if isDigit c then
      match t with
      | '_' :: u => (grouped? isDigit u).map fun (ds, rest) => (c :: ds, rest)
      | d :: u =>
        if isDigit d then
          (grouped? isDigit (d :: u)).map fun (ds, rest) => (c :: ds, rest)
        else some ([c], d :: u)
      | [] => some ([c], [])
    else none

/-- A sign, and the rest. -/
def sign : Text → Text × Text
  | '-' :: t => (['-'], t)
  | '+' :: t => ([], t)
  | t => ([], t)

/-- Decimal digits of a whole number, and the rest. A zero stands alone. -/
def whole? : Text → Option (Text × Text)
  | '0' :: t => some (['0'], t)
  | t => grouped? Char.isDigit t

/-- A number that fits 64 bits with its sign. -/
def fits? (n : Int) : Option Toml :=
  if -(Nat.pow 2 63 : Nat) ≤ n ∧ n < Nat.pow 2 63 then some (.integer n) else none

/-- Digits of a base that is a power of two, and the rest. -/
def based? (base : Nat) (isDigit : Char → Bool) (t : Text) : Option (Toml × Text) := do
  let (ds, rest) ← grouped? isDigit t
  let n ← fits? (ds.foldl (fun n c => base * n + ((Text.hexValue? c).getD 0 : Nat)) (0 : Nat) : Nat)
  pure (n, rest)

/-- A whole number, and the rest. -/
def integer? (t : Text) : Option (Toml × Text) :=
  match t with
  | '0' :: 'x' :: t => based? 16 (fun c => (Text.hexValue? c).isSome) t
  | '0' :: 'o' :: t => based? 8 (fun c => '0' ≤ c && c ≤ '7') t
  | '0' :: 'b' :: t => based? 2 (fun c => c = '0' || c = '1') t
  | t => do
    let (minus, t) := sign t
    let (ds, rest) ← whole? t
    let n : Int := Text.decimalNumber 0 ds
    let v ← fits? (if minus.isEmpty then n else -n)
    pure (v, rest)

/-- The power of ten of a float as it is read, and the rest. -/
def exponent? : Text → Option (Text × Text)
  | c :: t =>
    if c = 'e' || c = 'E' then do
      let (minus, t) := sign t
      let (ds, rest) ← grouped? Char.isDigit t
      pure ('e' :: minus ++ ds, rest)
    else none
  | [] => none

/-- What makes a number a float, a fraction or a power of ten, and the rest. -/
def fraction? : Text → Option (Text × Text)
  | '.' :: t => do
    let (ds, rest) ← grouped? Char.isDigit t
    match exponent? rest with
    | some (power, rest) => pure ('.' :: ds ++ power, rest)
    | none => pure ('.' :: ds, rest)
  | t => exponent? t

/-- A number with a fraction or a power of ten, and the rest. -/
def finite? (t : Text) : Option (Toml × Text) := do
  let (minus, t) := sign t
  let (ds, t) ← whole? t
  let (more, rest) ← fraction? t
  let r ← Decimal.read? (minus ++ ds ++ more)
  if r = .infinite false then none else pure (.float r, rest)

/-- A float, and the rest. -/
def float? (t : Text) : Option (Toml × Text) :=
  match finite? t with
  | some r => some r
  | none =>
    let (minus, t) := sign t
    match t with
    | 'i' :: 'n' :: 'f' :: rest => some (.float (.infinite (!minus.isEmpty)), rest)
    | 'n' :: 'a' :: 'n' :: rest => some (.float .notANumber, rest)
    | _ => none

/-- A number of exactly `n` digits between two bounds, its digits and the rest. -/
def field? (n low high : Nat) (t : Text) : Option (Nat × Text × Text) :=
  let ds := t.take n
  let v := Text.decimalNumber 0 ds
  if ds.length = n && ds.all Char.isDigit && low ≤ v && v ≤ high then some (v, ds, t.drop n)
  else none

/-- The rest behind a character. -/
def mark? (c : Char) : Text → Option Text
  | d :: t => if c = d then some t else none
  | [] => none

/-- Number of days of a month. -/
def daysIn (year month : Nat) : Nat :=
  if month = 2 then
    if year % 4 = 0 && (year % 100 ≠ 0 || year % 400 = 0) then 29 else 28
  else if month = 4 || month = 6 || month = 9 || month = 11 then 30
  else 31

/-- A date, as it is written, and the rest. -/
def date? (t : Text) : Option (Text × Text) := do
  let (year, y, t) ← field? 4 0 9999 t
  let t ← mark? '-' t
  let (month, m, t) ← field? 2 1 12 t
  let t ← mark? '-' t
  let (_, d, t) ← field? 2 1 (daysIn year month) t
  pure (y ++ '-' :: m ++ '-' :: d, t)

/-- A time of day, as it is written, and the rest. -/
def time? (t : Text) : Option (Text × Text) := do
  let (_, h, t) ← field? 2 0 23 t
  let t ← mark? ':' t
  let (_, m, t) ← field? 2 0 59 t
  let t ← mark? ':' t
  let (_, s, t) ← field? 2 0 60 t
  let whole := h ++ ':' :: m ++ ':' :: s
  match (mark? '.' t).bind Text.digits? with
  | some (ds, rest) => pure (whole ++ '.' :: ds, rest)
  | none => pure (whole, t)

/-- The distance of a time from universal time, as it is written, and the rest. -/
def offset? : Text → Option (Text × Text)
  | 'Z' :: t => some (['Z'], t)
  | 'z' :: t => some (['Z'], t)
  | c :: t =>
    if c = '+' || c = '-' then do
      let (_, h, t) ← field? 2 0 23 t
      let t ← mark? ':' t
      let (_, m, t) ← field? 2 0 59 t
      pure (c :: h ++ ':' :: m, t)
    else none
  | [] => none

/-- A time behind a date, with its offset if it has one, and the rest. -/
def timeOfDate? : Text → Option (Text × Text)
  | c :: t =>
    if c = 'T' || c = 't' || c = ' ' then do
      let (time, t) ← time? t
      match offset? t with
      | some (offset, rest) => pure ('T' :: time ++ offset, rest)
      | none => pure ('T' :: time, t)
    else none
  | [] => none

/-- A date with or without a time, or a time, and the rest. -/
def moment? (t : Text) : Option (Toml × Text) :=
  match date? t with
  | some (date, t) =>
    match timeOfDate? t with
    | some (time, rest) => some (.moment (date ++ time), rest)
    | none => some (.moment date, t)
  | none => (time? t).map fun (time, rest) => (.moment time, rest)

/-- A date, time or number, and the rest. -/
def number? (t : Text) : Option (Toml × Text) :=
  match moment? t with
  | some r => some r
  | none =>
    match float? t with
    | some r => some r
    | none => integer? t

end TagTemplate.Toml
