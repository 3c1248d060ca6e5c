import RequestSigning.Bytes
import RequestSigning.Curve.Limbs

/-!
# Points of P-521

A `Point` is a pair of coordinates that satisfy the equation of the curve, `y² = x³ - 3x + b`; the
point at infinity is none.  Sums and multiples are computed in `Projective` form, where `(x, y, z)`
stands for `(x / z², y / z³)` and `z = 0` is infinity.

`Point.encode` writes a point as an octet string, and `Point.decode?` reads it, as well as the two
forms that leave out `y`.  Those take a root in `Limbs`, and the parity by which one of them tells
two roots apart is that of the limbs: of a root so small that its limbs exceed the field prime the
short form means the negative.
-/

namespace RequestSigning.Curve

/-- the constant of the equation -/
def coefficient : Coordinate := Fin.ofNat fieldPrime
  0x51953eb9618e1c9a1f929a21a0b68540eea2da725b99b315f3b8b489918ef109e156193951ec7e937b1652c0bd3bb1bf073573df883d2c34f1ef451fd46b503f00

/-- the right side of the equation -/
def cubic (x : Coordinate) : Coordinate := x * x * x - 3 * x + coefficient

def OnCurve (x y : Coordinate) : Prop := y * y = cubic x

instance (x y : Coordinate) : Decidable (OnCurve x y) := inferInstanceAs (Decidable (_ = _))

/-- a point of the curve other than the one at infinity -/
structure Point where
  x : Coordinate
  y : Coordinate
  onCurve : OnCurve x y
  deriving DecidableEq

/-! ## encodings -/

def coordinateLength : Nat := 66

def coordinateOctets (x : Coordinate) : Bytes := Bytes.ofNat coordinateLength x.val

/-- the coordinate of 66 octets whose number is below the field prime -/
def coordinate? (b : Bytes) : Option Coordinate :=
  if h : b.length = coordinateLength ∧ b.toNat < fieldPrime then some ⟨b.toNat, h.2⟩ else none

namespace Point

def ofCoordinates? (x y : Coordinate) : Option Point :=
  if h : OnCurve x y then some ⟨x, y, h⟩ else none

theorem ofCoordinates?_eq_some_iff (x y : Coordinate) (p : Point) :
    ofCoordinates? x y = some p ↔ p.x = x ∧ p.y = y := by
  unfold ofCoordinates?
  constructor
  · intro h
    split at h
    · obtain rfl := Option.some.inj h
      exact ⟨rfl, rfl⟩
    · cases h
  · rintro ⟨rfl, rfl⟩
    exact dif_pos p.onCurve

/-- a point with both its coordinates -/
def encode (p : Point) : Bytes := 0x04 :: (coordinateOctets p.x ++ coordinateOctets p.y)

/-- a point with its first coordinate and the parity of its second -/
def encodeShort (p : Point) : Bytes :=
  (if p.y.val % 2 = 0 then 0x02 else 0x03) :: coordinateOctets p.x

def cubicLimbs (x : Coordinate) : Limbs :=
  let x := Limbs.ofNat x.val
  let cube := Limbs.mul (Limbs.mul x x) x
  Limbs.add (Limbs.add cube (Limbs.mul (Limbs.ofNat (fieldPrime - 3)) x))
    (Limbs.ofNat coefficient.val)

/-- the root of the right side, if there is one: the field prime is 3 modulo 4, so that it is the
power with the exponent `(fieldPrime + 1) / 4`, which is 2⁵¹⁹ -/
def root (x : Coordinate) : Limbs := Limbs.squares 519 (cubicLimbs x)

/-- the point with a given first coordinate whose second is the root, or the negative of a root
that is not kept -/
def ofRoot? (x : Coordinate) (keep : Limbs → Bool) : Option Point :=
  let root := root x
  let y := root.toCoordinate
  ofCoordinates? x (if keep root then y else -y)

def isSmaller (root : Limbs) : Bool := decide (root.toCoordinate ≤ -root.toCoordinate)

/-- the point of an octet string: with both coordinates, with the first and the parity of the
second, or with the first only, which means the smaller root -/
def decode? : Bytes → Option Point
  | [] => none
  | form :: rest =>
    if form = 0x04 then do
      let x ← coordinate? (rest.take coordinateLength)
      let y ← coordinate? (rest.drop coordinateLength)
      ofCoordinates? x y
    else if form = 0x02 ∨ form = 0x03 then do
      ofRoot? (← coordinate? rest) fun root => root.isOdd = decide (form = 0x03)
    else if form = 0x05 then do
      ofRoot? (← coordinate? rest) isSmaller
    else none

end Point

/-! ## sums and multiples -/

/-- a point with a common denominator of its coordinates, infinity included -/
structure Projective where
  x : Coordinate
  y : Coordinate
  z : Coordinate

namespace Projective

def infinity : Projective := ⟨1, 1, 0⟩

/-- a point without denominator -/
def ofPoint (p : Point) : Projective := ⟨p.x, p.y, 1⟩

def double (p : Projective) : Projective :=
  let delta := p.z * p.z
  let gamma := p.y * p.y
  let beta := p.x * gamma
  let alpha := 3 * ((p.x - delta) * (p.x + delta))
  let x := alpha * alpha - 8 * beta
  let sum := p.y + p.z
  ⟨x, alpha * (4 * beta - x) - 8 * (gamma * gamma), sum * sum - gamma - delta⟩

def add (p q : Projective) : Projective :=
  if p.z = 0 then q
  else if q.z = 0 then p
  else
    let pz := p.z * p.z
    let qz := q.z * q.z
    let u := p.x * qz
    let s := p.y * (q.z * qz)
    let h := q.x * pz - u
    let r := q.y * (p.z * pz) - s
    if h = 0 then (if r = 0 then p.double else infinity)
    else
      let hh := h * h
      let hhh := h * hh
      let v := u * hh
      let x := r * r - hhh - 2 * v
      ⟨x, r * (v - x) - s * hhh, h * (p.z * q.z)⟩

/-- the point `a · p + b · q` -/
def combine (a : Scalar) (p : Projective) (b : Scalar) (q : Projective) : Projective :=
  let both := p.add q
  ((bits width a.val).zip (bits width b.val)).foldl
    (fun sum pair =>
      let sum := sum.double
      match pair with
      | (true, true) => sum.add both
      | (true, false) => sum.add p
      | (false, true) => sum.add q
      | (false, false) => sum)
    infinity

def multiple (a : Scalar) (p : Projective) : Projective := combine a p 0 infinity

/-- the point without denominator, unless it is at infinity -/
def toPoint? (p : Projective) : Option Point :=
  if p.z = 0 then none
  else
    let w := inverse p.z
    let ww := w * w
    Point.ofCoordinates? (p.x * ww) (p.y * (w * ww))

end Projective

/-- the point whose multiples are all points -/
def generator : Point where
  x := Fin.ofNat fieldPrime
    0xc6858e06b70404e9cd9e3ecb662395b4429c648139053fb521f828af606b4d3dbaa14b5e77efe75928fe1dc127a2ffa8de3348b3c1856a429bf97e7e31c2e5bd66
  y := Fin.ofNat fieldPrime
    0x11839296a789a3bc0045c8a5fb42c7d1bd998f54449579b446817afbd17273e662c97ee72995ef42640c550b9013fad0761353c7086a272c24088be94769fd16650
  onCurve := by decide +kernel

end RequestSigning.Curve
