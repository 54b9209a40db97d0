/-!
# Doubles of decimal literals

A decimal literal `digits × 10^exponent` stands for the binary64 double nearest to it, a tie
going to the even significand; a literal at or beyond the midpoint above the largest finite
double has none. A double is written back with the fewest significant digits that read back
to it, the nearer of the two candidates of that length when both do. Those digits have two
spellings:

* `Double.plainText`: positional, never an exponent (`18446744073709552000`, `0.0000001`),
  as a value is named in messages and turned into a decimal; an exact tie between the two
  candidates goes to the larger;
* `Double.jsonText`: positional with `.0` for magnitudes from `1e-5` below `1e16`, otherwise
  one digit before the point and a signed exponent (`1.8446744073709552e+19`, `1e-7`), as a
  JSON writer spells a double; an exact tie goes to the even candidate.

All arithmetic is on natural numbers, so every step is exact.
-/

namespace Fabrication

/-- A finite double `± significand × 2^exponent`, with `significand < 2^53` and
`exponent ≥ -1074`; zero has significand zero. -/
structure Double where
  negative : Bool
  significand : Nat
  exponent : Int
  deriving DecidableEq, Repr, Inhabited

namespace Double

def digitCount (n : Nat) : Nat := (Nat.toDigits 10 n).length

def binaryFraction (m : Nat) (e : Int) : Nat × Nat :=
  if e ≥ 0 then (m * Nat.pow 2 e.toNat, 1) else (m, Nat.pow 2 (-e).toNat)

def decimalFraction (m : Nat) (e : Int) : Nat × Nat :=
  if e ≥ 0 then (m * Nat.pow 10 e.toNat, 1) else (m, Nat.pow 10 (-e).toNat)

/-- The whole number nearest to `num / den`, a half going to the even one. -/
def roundHalfEven (num den : Nat) : Nat :=
  let q := num / den
  let r := num % den
  if 2 * r > den || (2 * r == den && q % 2 == 1) then q + 1 else q

/-- The double nearest to the positive fraction `num / den`: significand and exponent, or
none past the largest finite double. -/
def nearestOf (num den : Nat) : Option (Nat × Int) :=
  let scaled (e : Int) : Nat × Nat :=
    if e ≥ 0 then (num, den * Nat.pow 2 e.toNat) else (num * Nat.pow 2 (-e).toNat, den)
  let below (e : Int) : Nat := (scaled e).1 / (scaled e).2
  let guess : Int := (Nat.log2 num : Int) - (Nat.log2 den : Int) - 52
  let e := if below guess < Nat.pow 2 52 then guess - 1 else guess
  let e := if below e ≥ Nat.pow 2 53 then e + 1 else e
  let e := max e (-1074)
  let m := roundHalfEven (scaled e).1 (scaled e).2
  let (m, e) := if m == Nat.pow 2 53 then (m / 2, e + 1) else (m, e)
  if e > 971 then none else some (m, e)

/-- The double nearest to `± digits × 10^exponent`; none when it is too large. Literals far
outside the range of doubles are settled by their digit count alone. -/
def ofDecimal (negative : Bool) (digits : Nat) (exponent : Int) : Option Double :=
  let magnitude : Int := exponent + digitCount digits
  if digits == 0 || magnitude < -330 then some ⟨negative, 0, 0⟩
  else if magnitude > 310 then none
  else
    let (num, den) := decimalFraction digits exponent
    (nearestOf num den).map fun (m, e) => ⟨negative, m, e⟩

def magnitude (x : Double) : Nat × Nat := binaryFraction x.significand x.exponent

def leadingPower (num den : Nat) : Int :=
  let guess : Int := (digitCount num : Int) - (digitCount den : Int)
  let (pn, pd) := decimalFraction 1 guess
  if num * pd < pn * den then guess - 1 else guess

/-- The fewest significant digits that read back as the double, and the power of ten of the
last one: `digits × 10^exponent`. Zero is `(0, 0)`. When the two candidates are equally near,
`upward` picks the larger, otherwise the even one. -/
def shortest (x : Double) (upward : Bool) : Nat × Int :=
  if x.significand == 0 then (0, 0)
  else
    let m := x.significand
    let e := x.exponent
    -- four times the value and the ends of the interval that reads back as it
    let closer := m == Nat.pow 2 52 && e > -1074
    let (vn, vd) := binaryFraction (4 * m) e
    let (ln, ld) := binaryFraction (4 * m - (if closer then 1 else 2)) e
    let (hn, hd) := binaryFraction (4 * m + 2) e
    let inclusive := m % 2 == 0
    let reads (d : Nat) (t : Int) : Bool :=
      let (cn, cd) := decimalFraction (4 * d) t
      let aboveLow := if inclusive then ln * cd ≤ cn * ld else ln * cd < cn * ld
      let belowHigh := if inclusive then cn * hd ≤ hn * cd else cn * hd < hn * cd
      aboveLow && belowHigh
    let lead := leadingPower vn (4 * vd)
    let attempt (k : Nat) : Option (Nat × Int) :=
      let t : Int := lead - k + 1
      let (sn, sd) := decimalFraction 1 t
      let d := (vn * sd) / (4 * vd * sn)
      let (mn, md) := decimalFraction (2 * (2 * d + 1)) t
      let upperNearer := mn * vd < vn * md || (mn * vd == vn * md && (upward || d % 2 == 1))
      match reads d t, reads (d + 1) t with
      | true, true => some (if upperNearer then d + 1 else d, t)
      | true, false => some (d, t)
      | false, true => some (d + 1, t)
      | false, false => none
    match (List.range 17).findSome? fun i => attempt (i + 1) with
    | some r => r
    | none =>
      let t : Int := lead - 16
      let (sn, sd) := decimalFraction 1 t
      (roundHalfEven (vn * sd) (4 * vd * sn), t)

/-- Digits and the power of ten of the last one, with trailing zeros moved into the power. -/
def trimZeros : Nat → Nat × Int → Nat × Int
  | 0, r => r
  | fuel + 1, (d, t) => if d != 0 && d % 10 == 0 then trimZeros fuel (d / 10, t + 1) else (d, t)

def zeros (n : Nat) : String := String.ofList (List.replicate n '0')

/-- Positional text of `digits × 10^exponent`: no exponent and no trailing fraction zeros. -/
def positional (digits : Nat) (exponent : Int) : String :=
  let s := toString digits
  if exponent ≥ 0 then if digits == 0 then "0" else s ++ zeros exponent.toNat
  else
    let k := (-exponent).toNat
    if s.length > k then
      String.ofList (s.toList.take (s.length - k)) ++ "." ++ String.ofList (s.toList.drop (s.length - k))
    else "0." ++ zeros (k - s.length) ++ s

def signText (x : Double) : String := if x.negative then "-" else ""

def plainText (x : Double) : String :=
  let (d, t) := trimZeros 400 (x.shortest true)
  signText x ++ positional d t

/-- The double as a JSON writer spells it. -/
def jsonText (x : Double) : String :=
  if x.significand == 0 then signText x ++ "0.0"
  else
    let (d, t) := trimZeros 400 (x.shortest false)
    let s := toString d
    let n : Int := s.length
    let kk := n + t
    let body :=
      if 0 ≤ t && kk ≤ 16 then s ++ zeros t.toNat ++ ".0"
      else if 0 < kk && kk ≤ 16 then
        String.ofList (s.toList.take kk.toNat) ++ "." ++ String.ofList (s.toList.drop kk.toNat)
      else if -5 < kk && kk ≤ 0 then "0." ++ zeros (-kk).toNat ++ s
      else
        let power := kk - 1
        let mark := if power ≥ 0 then "e+" else "e"
        if n == 1 then s!"{s}{mark}{power}"
        else
          let first := String.ofList (s.toList.take 1)
          let rest := String.ofList (s.toList.drop 1)
          s!"{first}.{rest}{mark}{power}"
    signText x ++ body

def digitsValue (cs : List Char) : Nat := cs.foldl (fun n c => 10 * n + (c.toNat - 48)) 0

/-- The double of a JSON number's text (sign, digits, optional fraction and exponent); none
for text of another shape or a value too large. -/
def ofText? (s : String) : Option Double :=
  let cs := s.toList
  let (negative, cs) := match cs with
    | '-' :: rest => (true, rest)
    | _ => (false, cs)
  let whole := cs.takeWhile Char.isDigit
  let cs := cs.dropWhile Char.isDigit
  let (fraction, cs) := match cs with
    | '.' :: rest => (rest.takeWhile Char.isDigit, rest.dropWhile Char.isDigit)
    | _ => ([], cs)
  let power : Option Int := match cs with
    | [] => some 0
    | c :: rest =>
      if c == 'e' || c == 'E' then
        let (sign, ds) : Int × List Char := match rest with
          | '-' :: ds => (-1, ds)
          | '+' :: ds => (1, ds)
          | ds => (1, ds)
        if !ds.isEmpty && ds.all Char.isDigit then
          -- an exponent beyond any double's range is capped: the value stays out of range
          some (sign * Nat.min (digitsValue ds) 100000)
        else none
      else none
  if whole.isEmpty then none
  else
    match power with
    | none => none
    | some p => ofDecimal negative (digitsValue (whole ++ fraction)) (p - fraction.length)

end Double

end Fabrication
