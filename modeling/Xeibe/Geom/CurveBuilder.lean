import Xeibe.Geom.Joined

/-!
# Joining the pieces of a curve

`CurveBuilder` joins segments (of a `Curve`) or members (of a `CompositeCurve` or `Ring`) into one
curve: consecutive linear pieces become one line, consecutive arcs one circular string.  A gap is
bridged with a straight line.
-/

namespace Xeibe.Geom

namespace F64

/-- `==` of two doubles. -/
def sameValue (a b : F64) : Bool := !a.isNan && !b.isNan && (a == b || a.isZero && b.isZero)

theorem isNan_of_finiteBits {a : F64} (h : a.finiteBits = true) : a.isNan = false := by
  unfold isNan
  rw [decide_eq_false_iff_not]
  intro hlt
  have hexponent : (0x7ff0000000000000 : UInt64).toNat = 2047 <<< 52 := by decide
  have hand : (a.bits &&& 0x7fffffffffffffff).toNat = a.bits.toNat % 2 ^ 63 := by
    rw [UInt64.toNat_and]
    exact Nat.and_two_pow_sub_one_eq_mod _ 63
  have hnat := UInt64.lt_iff_toNat_lt.mp hlt
  rw [hand, hexponent] at hnat
  have hfield : a.bits.toNat >>> 52 &&& 2047 = 2047 := by
    have hmod : a.bits.toNat >>> 52 &&& 2047 = a.bits.toNat / 2 ^ 52 % 2 ^ 11 := by
      rw [Nat.shiftRight_eq_div_pow]
      exact Nat.and_two_pow_sub_one_eq_mod _ 11
    rw [hmod]
    omega
  have hall : a.bits.toNat &&& 2047 <<< 52 = 2047 <<< 52 := by
    conv_rhs => rw [← hfield, Nat.shiftLeft_and_distrib]
    refine Nat.eq_of_testBit_eq fun i => ?_
    simp only [Nat.testBit_and, Nat.testBit_shiftLeft, Nat.testBit_shiftRight]
    by_cases hi : 52 ≤ i
    · simp [hi, Nat.add_sub_cancel' hi]
    · simp [hi]
  have hbits : a.bits &&& 0x7ff0000000000000 = 0x7ff0000000000000 := by
    rw [← UInt64.toNat_inj, UInt64.toNat_and, hexponent]
    exact hall
  simp [finiteBits, hbits] at h

theorem sameValue_self {a : F64} (h : a.finiteBits = true) : a.sameValue a = true := by
  simp [sameValue, isNan_of_finiteBits h]

end F64

/-- `==` of two positions. -/
def samePosition (a b : List F64) : Bool :=
  a.length == b.length && (a.zip b).all fun (x, y) => x.sameValue y

theorem length_of_samePosition {a b : List F64} (h : samePosition a b = true) :
    a.length = b.length := by
  unfold samePosition at h
  simp only [Bool.and_eq_true, beq_iff_eq] at h
  exact h.1

theorem samePosition_self {a : List F64} (h : ∀ x ∈ a, x.finiteBits = true) :
    samePosition a a = true := by
  unfold samePosition
  simp only [beq_self_eq_true, Bool.true_and, List.all_eq_true, Prod.forall]
  intro x y hxy
  have hzip : (x, y) ∈ a.map fun z => (z, z) := by
    rwa [← List.zip_map', List.map_id']
  obtain ⟨z, hz, heq⟩ := List.mem_map.mp hzip
  obtain ⟨rfl, rfl⟩ := Prod.mk.inj heq
  exact F64.sameValue_self (h z hz)

/-! ## The parts of a curve -/

namespace CurvePart

def isCircular : CurvePart → Bool
  | .linear _ => false
  | .circular _ => true

/-- `coords_mut`: the part with other coordinates. -/
def withCoords (part : CurvePart) (coords : Coords) : CurvePart :=
  match part with
  | .linear _ => .linear { coords }
  | .circular arc => .circular { arc with coords }

/-- The part with some of its indices of computed positions. -/
def retainComputed (part : CurvePart) (keep : Nat → Bool) : CurvePart :=
  match part with
  | .linear line => .linear line
  | .circular arc => .circular { arc with computed := arc.computed.filter keep }

/-- Whether position `i` was computed. -/
def isComputed (part : CurvePart) (i : Nat) : Bool :=
  match part with
  | .linear _ => false
  | .circular arc => arc.computed.contains i

def isLastComputed (part : CurvePart) : Bool := part.isComputed (part.coords.len - 1)

def isFirstComputed (part : CurvePart) : Bool := part.isComputed 0

end CurvePart

def overwrite (target source : List F64) : List F64 :=
  target.mapIdx fun k _ => source.getD k .nan

def setLast (part : CurvePart) (position : List F64) : CurvePart :=
  let coords := part.coords
  let start := coords.values.length - coords.size
  let values := coords.values.take start ++ overwrite (coords.values.drop start) position
  (part.withCoords { coords with values }).retainComputed fun i => i != coords.len - 1

def setFirst (part : CurvePart) (position : List F64) : CurvePart :=
  let coords := part.coords
  let values := overwrite (coords.values.take coords.size) position ++
    coords.values.drop coords.size
  (part.withCoords { coords with values }).retainComputed fun i => i != 0

/-! ## Joining -/

/-- What joining asks about two positions.  `distance_xy` is `hypot`, which rounds as the platform
does, and so is the tolerance a rounded product; a distance of zero is within every tolerance. -/
structure Ruler where
  /-- `distance > tolerance` -/
  exceeds : List F64 → List F64 → Bool
  /-- `distance`, as a warning writes it -/
  distance : List F64 → List F64 → String
  exact : ∀ a b, coincide a b = true → exceeds a b = false

/-- The last part ends at exactly the position where the piece starts. -/
def sharesStart (parts : List CurvePart) (piece : CurvePart) : Bool :=
  match parts.getLast?.bind fun last => last.coords.last, piece.coords.first with
  | some ending, some start => samePosition ending start
  | _, _ => false

/-- Append `piece` to the last part if both are the same kind (dropping the shared position), else
push it as a new part. -/
def mergeOrPush (parts : List CurvePart) (piece : CurvePart) : List CurvePart :=
  if sharesStart parts piece then
    match parts.getLast?, piece with
    | some (.linear last), .linear line =>
      parts.dropLast ++ [.linear { coords := last.coords.appendJoined coincide line.coords }]
    | some (.circular last), .circular arc =>
      let offset := last.coords.len - 1
      let shifted := (arc.computed.filter fun i => i > 0).map fun i => i + offset
      parts.dropLast ++ [.circular {
        coords := last.coords.appendJoined coincide arc.coords
        computed := last.computed ++ shifted }]
    | _, piece => parts ++ [piece]
  else parts ++ [piece]

/-- Bridge the gap with a straight line, so every part still starts where the previous one ends:
the last parts, and what is to come behind them. -/
def bridgeGap (last piece : CurvePart) (ending start : List F64) : List CurvePart × CurvePart :=
  match last, piece with
  | .linear line, piece => ([.linear { coords := line.coords.push start }], piece)
  | .circular arc, .linear line =>
    let coords := Coords.push { dim := line.coords.dim, values := [] } ending
    ([.circular arc], .linear { coords := coords.appendJoined coincide line.coords })
  | .circular arc, .circular next =>
    let bridge := (Coords.push { dim := next.coords.dim, values := [] } ending).push start
    ([.circular arc, .linear { coords := bridge }], .circular next)

def gapWarning (distance : String) : String :=
  s!"gap of {distance} between the end of one segment and the start of the next; " ++
    "both positions kept"

def toleranceWarning (distance : String) : String :=
  s!"segment start differs from the previous end by {distance} (within the join tolerance); joined"

/-- The parts with one more piece, and the warning it gives.  `none` is the panic of an `expect`:
no part is empty, and empty pieces are skipped. -/
def joinPiece (ruler : Ruler) (parts : List CurvePart) (piece : CurvePart) :
    Option (List CurvePart × List String) :=
  match parts.getLast? with
  | none => some (parts ++ [piece], [])
  | some last => do
    let ending ← last.coords.last
    let start ← piece.coords.first
    if ruler.exceeds ending start then
      let (lasts, piece) := bridgeGap last piece ending start
      some (mergeOrPush (parts.dropLast ++ lasts) piece,
        [gapWarning (ruler.distance ending start)])
    else
      let warnings := if coincide ending start then [] else
        [toleranceWarning (ruler.distance ending start)]
      -- stored coordinates win over computed ones
      let kept := if last.isLastComputed && !piece.isFirstComputed then start else ending
      some (mergeOrPush (parts.dropLast ++ [setLast last kept]) (setFirst piece kept), warnings)

structure CurveBuilder where
  pieces : List CurvePart

structure JoinedCurve where
  /-- `none` if nothing (or only empty pieces) was pushed. -/
  curve : Option Curve
  warnings : List String

namespace CurveBuilder

def pushLinear (builder : CurveBuilder) (line : LineString) : CurveBuilder :=
  { pieces := builder.pieces ++ [.linear line] }

def pushCircular (builder : CurveBuilder) (arc : CircularString) : CurveBuilder :=
  { pieces := builder.pieces ++ [.circular arc] }

def pushCurve (builder : CurveBuilder) : Curve → CurveBuilder
  | .linear line => builder.pushLinear line
  | .circular arc => builder.pushCircular arc
  | .compound compound => { pieces := builder.pieces ++ compound.parts }

/-- Every piece that is not empty, joined behind the ones before it. -/
def joinPieces (ruler : Ruler) (pieces : List CurvePart) :
    Option (List CurvePart × List String) :=
  pieces.foldlM (fun (parts, warnings) piece =>
    if piece.coords.isEmpty then some (parts, warnings) else do
      let (parts, more) ← joinPiece ruler parts piece
      some (parts, warnings ++ more)) ([], [])

def curveOf : List CurvePart → Option Curve
  | [] => none
  | [.linear line] => some (.linear line)
  | [.circular arc] => some (.circular arc)
  | parts => some (.compound { parts })

/-- Join everything pushed; the tolerance is relative to the extent of all pieces. -/
def finish (ruler : List Coords → Ruler) (builder : CurveBuilder) : Option JoinedCurve := do
  let (parts, warnings) ←
    joinPieces (ruler (builder.pieces.map CurvePart.coords)) builder.pieces
  some { curve := curveOf parts, warnings }

end CurveBuilder

/-- The parts of a curve. -/
def Curve.parts : Curve → List CurvePart
  | .linear line => [.linear line]
  | .circular arc => [.circular arc]
  | .compound curve => curve.parts

end Xeibe.Geom
