import LoxLexis.Binary64.Basic

/-!
# Written doubles

A double is written with the shortest digits that read back as the same double. Zero and the numbers
in a middle range are written out in full, all others with an exponent.
-/

namespace LoxLexis

/-! ## Shortest decimals

Among all decimals that round to a given double, `shortest` finds one with the fewest digits, and of
those the closest to the double. It looks at the double's two neighbours on decimal grids of finer
and finer spacing, and stops at the first grid on which a neighbour rounds back.

All arithmetic is exact. Numbers are counted in units of `2 ^ -1075` times `10 ^ -340`: half-way
points between doubles are whole in the first, and every grid that is looked at is whole in the
second, since seventeen digits always suffice. -/

/-- The numbers that round to one double: those between `lower` and `upper`, the ends included if
`closed`. The double itself is `centre`. -/
structure Window where
  lower : Nat
  centre : Nat
  upper : Nat
  closed : Bool
deriving Repr

namespace Window

/-- The power of ten by which windows are scaled. -/
def places : Nat :=
  340

/-- The window of the double with the given magnitude, which is not zero. The ends are half way to
the doubles beside it, and go to the double with the even significand. -/
def ofMagnitude (m : Nat) : Window where
  lower := (Binary64.units (m - 1) + Binary64.units m) * Nat.pow 10 places
  centre := 2 * Binary64.units m * Nat.pow 10 places
  upper := (Binary64.units m + Binary64.units (m + 1)) * Nat.pow 10 places
  closed := m % 2 == 0

def contains (w : Window) (x : Nat) : Bool :=
  if w.closed then w.lower ≤ x && x ≤ w.upper else w.lower < x && x < w.upper

/-- The spacing of the grid of multiples of `10 ^ (j - 340)`. -/
def spacing (j : Nat) : Nat :=
  Nat.pow 10 j * (2 * Binary64.one)

/-- Of the two multiples of `step` around the centre, the one that rounds to the double. If both do,
the closer one; half way between them, the greater. -/
def onGrid? (w : Window) (step : Nat) : Option Nat :=
  let below := w.centre / step
  let above := below + 1
  match w.contains (below * step), w.contains (above * step) with
  | true, true => if 2 * w.centre < (below + above) * step then some below else some above
  | true, false => some below
  | false, true => some above
  | false, false => none

/-- The first hit on the grids from `j` downwards, with the grid it is on. -/
def search (w : Window) : Nat → Nat × Nat
  | 0 => ((w.onGrid? (spacing 0)).getD (w.centre / spacing 0), 0)
  | j + 1 =>
      match w.onGrid? (spacing (j + 1)) with
      | some multiple => (multiple, j + 1)
      | none => w.search j

/-- The coarsest grid that can matter: on it the centre has a single digit. -/
def coarsest (w : Window) : Nat :=
  (Nat.toDigits 10 (w.centre / spacing 0)).length - 1

end Window

/-- The shortest decimal that rounds to the finite double of the given magnitude. -/
def Binary64.shortest (m : Nat) : Decimal :=
  if m = 0 then .zero
  else
    let w := Window.ofMagnitude m
    let (multiple, j) := w.search w.coarsest
    (Decimal.ofMultiple multiple (j - Window.places)).dropZeros

/-! ## Styles -/

/-- How doubles are written: the words for what is no number, the mark before an exponent, and the
range of magnitudes that are written out in full. -/
structure NumberStyle where
  nan : List Char
  infinity : List Char
  mark : Char
  positionalFrom : Nat
  positionalBelow : Nat

namespace NumberStyle

/-- Whether a finite magnitude is written without an exponent. -/
def isPositional (style : NumberStyle) (m : Nat) : Bool :=
  m == 0 || style.positionalFrom ≤ m && m < style.positionalBelow

/-- A finite magnitude in the form that suits its size. -/
def finite (style : NumberStyle) (m : Nat) : List Char :=
  let d := Binary64.shortest m
  if style.isPositional m then d.positional else d.withExponent style.mark

def unsigned (style : NumberStyle) (x : Binary64) : List Char :=
  if x.isInfinite then style.infinity else style.finite x.magnitude

/-- The text of a double. NaN has no sign. -/
def write (style : NumberStyle) (x : Binary64) : List Char :=
  if x.isNaN then style.nan
  else if x.negative then '-' :: style.unsigned x
  else style.unsigned x

end NumberStyle

/-- The style of number literals: written out in full from a thousandth up to, but not including,
ten million. -/
def NumberStyle.literal : NumberStyle where
  nan := "NaN".toList
  infinity := "Infinity".toList
  mark := 'E'
  positionalFrom := Binary64.nearestMagnitude 1 1000
  positionalBelow := Binary64.nearestMagnitude 10000000 1

/-- The text of a double as a number literal shows it. -/
def Binary64.text (x : Binary64) : String :=
  String.ofList (NumberStyle.literal.write x)

end LoxLexis
