import CairoTrace.Felt

/-!
# Polynomials on groups of order `2^k`

Polynomials as lists of coefficients, the constant one first. The values of a polynomial at the
powers of an element of order `2^k` are computed by halves: the even and the odd coefficients give
two polynomials in `x²`, whose values combine to those at `x` and at `-x`.
-/

namespace CairoTrace

namespace Polynomial

def eval (coefficients : List Felt) (x : Felt) : Felt :=
  coefficients.foldr (fun c acc => c + x * acc) 0

/-- The coefficients at even and at odd places. -/
def split : List Felt → List Felt × List Felt
  | [] => ([], [])
  | [a] => ([a], [])
  | a :: b :: rest =>
    let (evens, odds) := split rest
    (a :: evens, b :: odds)

/-- The sums `eᵢ + wⁱ·c·oᵢ` and the differences `eᵢ - wⁱ·c·oᵢ`. -/
def combine (w : Felt) : (c : Felt) → (evens odds : List Felt) → List Felt × List Felt
  | c, e :: evens, o :: odds =>
    let t := c * o
    let (sums, differences) := combine w (c * w) evens odds
    ((e + t) :: sums, (e - t) :: differences)
  | _, _, _ => ([], [])

/-- The values at `1`, `w`, `w²`, … of a polynomial with `2^k` coefficients, where `w` has order
`2^k`. -/
def values : (k : Nat) → (w : Felt) → List Felt → List Felt
  | 0, _, coefficients => coefficients
  | k + 1, w, coefficients =>
    let (evens, odds) := split coefficients
    let (sums, differences) := combine w 1 (values k (w * w) evens) (values k (w * w) odds)
    sums ++ differences

/-- The coefficients of the polynomial with the given `2^k` values at the powers of the chosen
element of that order. -/
def interpolate (values' : List Felt) : List Felt :=
  let n := values'.length
  let scale : Felt := (Residue.ofNat n)⁻¹
  (values n.log2 (Felt.rootOfUnity n)⁻¹ values').map (scale * ·)

/-- The degree, zero for the zero polynomial. -/
def degree (coefficients : List Felt) : Nat :=
  (coefficients.reverse.dropWhile (·.isZero)).length - 1

/-- The powers `c`, `c·b`, `c·b²`, … -/
def powersFrom (b : Felt) : (c : Felt) → (n : Nat) → List Felt
  | _, 0 => []
  | c, n + 1 => c :: powersFrom b (c * b) n

end Polynomial

end CairoTrace
