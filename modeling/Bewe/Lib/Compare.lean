import Bewe.Lib.Float

/-!
# Comparisons of floating-point values

The comparisons, the difference and the absolute value of a floating-point type, as the C operators
compute them: a comparison with a NaN is false, and so is `x <= y` beside `x > y` where one is a
NaN, so that a guard lets through what its negation would not.
-/

namespace Lib

namespace Fp

variable {p : ℕ}

/-- `x < y`. -/
def lt : Fp p → Fp p → Bool
  | .fin q _, .fin r _ => q < r
  | .fin _ _, .inf neg => !neg
  | .inf neg, .fin _ _ => neg
  | .inf neg, .inf neg' => neg && !neg'
  | _, _ => false

/-- `x <= y`. -/
def le : Fp p → Fp p → Bool
  | .fin q _, .fin r _ => q ≤ r
  | .fin _ _, .inf neg => !neg
  | .inf neg, .fin _ _ => neg
  | .inf neg, .inf neg' => neg || !neg'
  | _, _ => false

/-- `x - y`. -/
def sub (hp : 0 < p) : Fp p → Fp p → Fp p
  | .fin q _, .fin r _ => ofRat hp (q - r)
  | .fin _ _, .inf neg => .inf !neg
  | .inf neg, .fin _ _ => .inf neg
  | .inf neg, .inf neg' => if neg = neg' then .nan true else .inf neg
  | .nan neg, _ => .nan neg
  | _, .nan neg => .nan neg

/-- `x + y`. -/
def add (hp : 0 < p) : Fp p → Fp p → Fp p
  | .fin q _, .fin r _ => ofRat hp (q + r)
  | .fin _ _, .inf neg => .inf neg
  | .inf neg, .fin _ _ => .inf neg
  | .inf neg, .inf neg' => if neg = neg' then .inf neg else .nan true
  | .nan neg, _ => .nan neg
  | _, .nan neg => .nan neg

/-- `x * c` for a positive number `c` that the type holds. -/
def mulRat (hp : 0 < p) (c : ℚ) : Fp p → Fp p
  | .fin q _ => ofRat hp (q * c)
  | .inf neg => .inf neg
  | .nan neg => .nan neg

/-- `x / c` for a positive number `c` that the type holds. -/
def divRat (hp : 0 < p) (c : ℚ) : Fp p → Fp p
  | .fin q _ => ofRat hp (q / c)
  | .inf neg => .inf neg
  | .nan neg => .nan neg

/-- `-x` -/
def neg (hp : 0 < p) : Fp p → Fp p
  | .fin q _ => ofRat hp (-q)
  | .inf neg => .inf !neg
  | .nan neg => .nan neg

/-- `x / y`. -/
def div (hp : 0 < p) : Fp p → Fp p → Fp p
  | .fin q _, .fin r _ =>
    if r = 0 then (if q = 0 then .nan true else .inf (q < 0)) else ofRat hp (q / r)
  | .fin _ _, .inf _ => ofRat hp 0
  | .inf neg, .fin r _ => .inf (neg ^^ decide (r < 0))
  | .inf _, .inf _ => .nan true
  | .nan neg, _ => .nan neg
  | _, .nan neg => .nan neg

/-- `fabs(x)`. -/
def abs (hp : 0 < p) : Fp p → Fp p
  | .fin q _ => ofRat hp |q|
  | .inf _ => .inf false
  | .nan _ => .nan false

/-- `fmin(x, y)`: a NaN gives way to the other. -/
def fmin (x y : Fp p) : Fp p :=
  match x, y with
  | .nan _, y => y
  | x, .nan _ => x
  | x, y => if lt y x then y else x

@[inherit_doc fmin]
def fmax (x y : Fp p) : Fp p :=
  match x, y with
  | .nan _, y => y
  | x, .nan _ => x
  | x, y => if lt x y then y else x

theorem lt_zero_divRat (hp : 0 < p) {q c : ℚ} (hq : 0 < q) (hc : 0 < c) :
    lt (ofRat hp 0) (divRat hp c (ofRat hp q)) = true := by
  have hpos : 0 < roundBits p (roundBits p q / c) :=
    roundBits_pos hp (div_pos (roundBits_pos hp hq) hc)
  simpa [ofRat, divRat, lt, roundBits] using hpos

end Fp

end Lib
