import Mathlib.Algebra.Order.BigOperators.Group.List
import Mathlib.Algebra.Order.Group.Nat
import Xeibe.Geom.WkbNormal

/-!
# The WKB round trip

The writer, the sizer and the reader are three recursions over the geometry.
`Agrees` says of one part what all three have in common: the writer succeeds
when the counts fit, writes as many bytes as the sizer says, and the reader
reads them as the normalised part.  There is one such lemma for each kind of
part, built from the rules for a header (`Agrees.header`), a checked count
(`agrees_counted`) and a sequence (`agrees_each`), and one induction over the
members of collections (`agrees_geometry`).

The reader checks a count against the bytes left, so the rule for a count asks
that the sizer gives every item at least the reader's minimum.
-/

namespace Xeibe.Geom.Wkb

open Xeibe.Lib Xeibe.Lib.Parser

namespace Writer

def little (w : Writer) : Bool := w.endianness = .little

/-- The sizer that mirrors the writer. -/
def sizer (w : Writer) : Sizer := { position := 8 * w.dim.size }

/-- What the reader makes of the writer's header. -/
def head (w : Writer) (base : UInt32) : Header :=
  { little := w.little, base, size := w.dim.size, dim := w.dim }

@[simp] theorem head_base (w : Writer) (base : UInt32) : (w.head base).base = base := rfl

end Writer

/-! ## Numbers and headers -/

theorem reads_take (bytes : Bytes) : Reads (Reader.take bytes.length) bytes bytes := by
  intro before rest
  simp [Reader.take, Cursor.between, Cursor.left, Bind.bind, StateT.bind, Except.bind, get, getThe,
    MonadStateOf.get, StateT.get, set, StateT.set, Pure.pure, StateT.pure, Except.pure]

theorem ordered_length (w : Writer) (bytes : Bytes) : (w.ordered bytes).length = bytes.length := by
  unfold Writer.ordered
  split <;> simp

theorem ordered_back (w : Writer) (bytes : Bytes) :
    (if w.little then w.ordered bytes else (w.ordered bytes).reverse) = bytes := by
  cases h : w.endianness <;> simp [Writer.ordered, Writer.little, h]

theorem reads_u32 (w : Writer) (value : UInt32) :
    Reads (Reader.u32 w.little) (w.u32 value) value := by
  have htake := reads_take (w.u32 value)
  have hlength : (w.u32 value).length = 4 := by simp [Writer.u32, ordered_length]
  have hvalue : UInt32.ofNat (ofLittleEndian
      (if w.little then w.u32 value else (w.u32 value).reverse)) = value := by
    rw [Writer.u32, ordered_back, ofLittleEndian_littleEndian,
      Nat.mod_eq_of_lt (by simpa using value.toNat_lt), UInt32.ofNat_toNat]
  rw [hlength] at htake
  have h := htake.map fun bytes => UInt32.ofNat (ofLittleEndian
    (if w.little then bytes else bytes.reverse))
  rwa [hvalue] at h

theorem reads_count (w : Writer) {n minBytes : Nat} {body : Bytes} (hn : n < 2 ^ 32)
    (hbody : n * minBytes ≤ body.length) :
    ReadsBefore (Reader.count w.little minBytes) (w.u32 (UInt32.ofNat n)) n body := by
  have hback : (UInt32.ofNat n).toNat = n := by
    rw [UInt32.toNat_ofNat', Nat.mod_eq_of_lt (by simpa using hn)]
  intro before rest
  have hread := reads_u32 w (UInt32.ofNat n) before (body ++ rest)
  have hleft : ¬ min (n * minBytes) usizeMax > (body ++ rest).length := by
    rw [List.length_append]
    omega
  unfold Reader.count
  simp only [Bind.bind, StateT.bind, hread, Except.bind]
  simp only [get, getThe, MonadStateOf.get, StateT.get, Pure.pure, Except.pure, hback,
    Cursor.between_left, if_neg hleft, StateT.pure]

theorem parseCode_small : ∀ k : Fin 12,
    Reader.parseCode (UInt32.ofNat (k + 1)) = some (UInt32.ofNat (k + 1), false, false) ∧
      Reader.parseCode (UInt32.ofNat (k + 1) + 1000) =
        some (UInt32.ofNat (k + 1), true, false) ∧
      UInt32.ofNat (k + 1) &&& EWKB_SRID = 0 ∧
      (UInt32.ofNat (k + 1) + 1000) &&& EWKB_SRID = 0 := by
  decide

theorem parseCode_code (w : Writer) {base : UInt32} (hbase : POINT ≤ base ∧ base ≤ MULTI_SURFACE) :
    Reader.parseCode (w.code base) = some (base, decide (w.dim = .xyz), false) ∧
      w.code base &&& EWKB_SRID = 0 := by
  obtain ⟨hlow, hhigh⟩ := hbase
  have hlow : 1 ≤ base.toNat := UInt32.le_iff_toNat_le.1 hlow
  have hhigh : base.toNat ≤ 12 := UInt32.le_iff_toNat_le.1 hhigh
  have hsmall := parseCode_small ⟨base.toNat - 1, by omega⟩
  simp only [Nat.sub_add_cancel hlow, UInt32.ofNat_toNat] at hsmall
  obtain ⟨hxy, hxyz, hsrid, hsrid'⟩ := hsmall
  unfold Writer.code
  cases w.dim with
  | xy => exact ⟨hxy, hsrid⟩
  | xyz => exact ⟨hxyz, hsrid'⟩

theorem reads_byteOrder (w : Writer) : Reads Reader.byteOrder [w.order] w.little := by
  intro before rest
  have htake := reads_take [w.order] before rest
  unfold Reader.byteOrder
  rw [List.length_singleton] at htake
  simp only [Bind.bind, StateT.bind, htake, Except.bind]
  cases h : w.endianness <;>
    simp [Writer.order, Writer.little, h, get, getThe, MonadStateOf.get, StateT.get, Pure.pure,
      Except.pure, StateT.pure]

theorem reads_headerBody (w : Writer) {base : UInt32}
    (hbase : POINT ≤ base ∧ base ≤ MULTI_SURFACE) :
    Reads (Reader.headerBody w.little (w.code base)) [] (w.head base) := by
  obtain ⟨hparse, hsrid⟩ := parseCode_code w hbase
  have hbody : Reader.headerBody w.little (w.code base) = pure (w.head base) := by
    unfold Reader.headerBody
    rw [hparse, hsrid]
    cases h : w.dim <;> simp [Writer.head, h, Dim.size]
  rw [hbody]
  exact Reads.pure _

theorem reads_header (w : Writer) {base : UInt32} (hbase : POINT ≤ base ∧ base ≤ MULTI_SURFACE) :
    Reads Reader.header (w.header base) (w.head base) := by
  have hcode := (reads_u32 w (w.code base)).bind (reads_headerBody w hbase)
  rw [List.append_nil] at hcode
  exact (reads_byteOrder w).bind hcode

/-! ## Positions -/

theorem reads_f64 (w : Writer) (value : F64) : Reads (Reader.f64 w.little) (w.f64 value) value := by
  have htake := reads_take (w.f64 value)
  have hlength : (w.f64 value).length = 8 := by simp [Writer.f64, ordered_length]
  have hvalue : UInt64.ofNat (ofLittleEndian
      (if w.little then w.f64 value else (w.f64 value).reverse)) = value.bits := by
    rw [Writer.f64, ordered_back, ofLittleEndian_littleEndian,
      Nat.mod_eq_of_lt (by simpa using value.bits.toNat_lt), UInt64.ofNat_toNat]
  rw [hlength] at htake
  have h := htake.map fun bytes => (⟨UInt64.ofNat (ofLittleEndian
    (if w.little then bytes else bytes.reverse))⟩ : F64)
  rwa [hvalue] at h

@[simp] theorem f64_length (w : Writer) (value : F64) : (w.f64 value).length = 8 := by
  simp [Writer.f64, ordered_length]

@[simp] theorem u32_length (w : Writer) (value : UInt32) : (w.u32 value).length = 4 := by
  simp [Writer.u32, ordered_length]

@[simp] theorem header_length (w : Writer) (base : UInt32) : (w.header base).length = HEADER := by
  simp [Writer.header, HEADER]

@[simp] theorem position_length (w : Writer) (values : List F64) :
    (w.position values).length = 8 * w.dim.size := by
  simp [Writer.position, List.length_flatMap, Nat.mul_comm]

theorem reads_position (w : Writer) (base : UInt32) (values : List F64) :
    Reads (Reader.position (w.head base)) (w.position values) (fit w.dim values) := by
  have hpieces : List.Forall₂ (fun xs a => Reads (Reader.f64 w.little) xs a)
      ((List.range w.dim.size).map fun k => w.f64 (values.getD k F64.nan)) (fit w.dim values) := by
    rw [fit, List.forall₂_map_left_iff, List.forall₂_map_right_iff, List.forall₂_same]
    exact fun k _ => reads_f64 w _
  have htimes := Reads.times hpieces
  rw [fit_length, ← List.flatMap_def] at htimes
  have h := htimes.map fun values => values.take w.dim.size
  rwa [List.take_of_length_le (fit_length _ _).le] at h

/-! ## Coordinates -/

theorem position_of_length (w : Writer) {values : List F64} (h : values.length = w.dim.size) :
    w.position values = values.flatMap w.f64 := by
  have hfit : w.position values = (fit w.dim values).flatMap w.f64 := by
    rw [Writer.position, fit, List.flatMap_map]
  rw [hfit, fit_of_length h]

theorem coords_eq (w : Writer) (coords : Coords) :
    w.coords coords =
      (w.count coords.len).bind fun count => some (count ++ coords.positions.flatMap w.position) := by
  unfold Writer.coords
  cases w.count coords.len with
  | none => rfl
  | some bytes =>
    show (if _ then _ else _) = _
    split
    · rename_i hsize
      have hpositions : coords.positions.flatMap w.position =
          (coords.positions.flatMap id).flatMap w.f64 := by
        rw [List.flatMap_assoc]
        exact List.flatMap_congr fun position hposition =>
          position_of_length w ((length_of_mem_chunksExact hposition).trans hsize)
      rw [Option.bind_some, hpositions, List.flatMap_id, Coords.positions, chunksExact_flatten]
      rfl
    · rfl

/-! ## What the three recursions agree on -/

/-- When the counts fit, `written` is there, is of the size given, and is read
as `value`. -/
def Agrees {α : Type} (written : Option Bytes) (counts : List Nat) (size : Nat) (read : Reader α)
    (value : α) : Prop :=
  (∀ n ∈ counts, n < 2 ^ 32) →
    ∃ bytes, written = some bytes ∧ bytes.length = size ∧ Reads read bytes value

theorem Agrees.header {α : Type} {w : Writer} {base : UInt32} {written : Option Bytes}
    {counts : List Nat} {size : Nat} {body : Header → Reader α} {value : α}
    (hbase : POINT ≤ base ∧ base ≤ MULTI_SURFACE)
    (h : Agrees written counts size (body (w.head base)) value) :
    Agrees (written.bind fun bytes => some (w.header base ++ bytes)) counts (HEADER + size)
      (do let header ← Reader.header; body header) value := by
  intro hcounts
  obtain ⟨bytes, rfl, hlength, hreads⟩ := h hcounts
  refine ⟨_, rfl, ?_, (reads_header w hbase).bind hreads⟩
  simp [hlength]

theorem Agrees.map {α β : Type} {written : Option Bytes} {counts : List Nat} {size : Nat}
    {read : Reader α} {value : α} (h : Agrees written counts size read value) (f : α → β) :
    Agrees written counts size (do let a ← read; pure (f a)) (f value) := by
  intro hcounts
  obtain ⟨bytes, hwritten, hlength, hreads⟩ := h hcounts
  exact ⟨bytes, hwritten, hlength, hreads.map f⟩

theorem agrees_each {α β : Type} {item : α → Option Bytes} {counts : α → List Nat}
    {size : α → Nat} {read : Reader β} {value : α → β} {items : List α}
    (h : ∀ a ∈ items, Agrees (item a) (counts a) (size a) read (value a)) :
    Agrees (Writer.each item items) (items.flatMap counts) (items.map size).sum
      (read.times items.length) (items.map value) := by
  induction items with
  | nil => exact fun _ => ⟨[], rfl, rfl, Reads.pure []⟩
  | cons first rest ih =>
    intro hcounts
    obtain ⟨bytes, hfirst, hlength, hreads⟩ := h first (by simp) fun n hn =>
      hcounts n (by simp [hn])
    obtain ⟨others, hrest, hlength', hreads'⟩ := ih (fun a ha => h a (by simp [ha])) fun n hn =>
      hcounts n (by simp only [List.flatMap_cons, List.mem_append]; exact .inr hn)
    refine ⟨bytes ++ others, ?_, ?_, ?_⟩
    · rw [Writer.each, hfirst, hrest]
      rfl
    · simp [hlength, hlength']
    · exact hreads.bind (hreads'.map _)

theorem length_mul_le_sum {α : Type} {items : List α} {size : α → Nat} {minBytes : Nat}
    (h : ∀ a ∈ items, minBytes ≤ size a) : items.length * minBytes ≤ (items.map size).sum := by
  induction items with
  | nil => simp
  | cons first rest ih =>
    have hfirst := h first (by simp)
    have hrest := ih fun a ha => h a (by simp [ha])
    rw [List.map_cons, List.sum_cons, List.length_cons, Nat.succ_mul]
    omega

theorem agrees_counted {α : Type} (w : Writer) {n minBytes size : Nat} {counts : List Nat}
    {written : Option Bytes} (read : Nat → Reader α) {value : α} (hmin : n * minBytes ≤ size)
    (h : Agrees written counts size (read n) value) :
    Agrees (do let count ← w.count n; let bytes ← written; some (count ++ bytes)) (n :: counts)
      (COUNT + size) (do let n ← Reader.count w.little minBytes; read n) value := by
  intro hcounts
  have hn : n < 2 ^ 32 := hcounts n (by simp)
  obtain ⟨bytes, rfl, rfl, hreads⟩ := h fun k hk => hcounts k (by simp [hk])
  refine ⟨w.u32 (UInt32.ofNat n) ++ bytes, ?_, ?_, (reads_count w hn hmin).andThen hreads⟩
  · rw [Writer.count, if_pos hn]
    rfl
  · simp [COUNT]

theorem agrees_many {α β : Type} (w : Writer) {minBytes : Nat} {item : α → Option Bytes}
    {counts : α → List Nat} {size : α → Nat} {read : Reader β} {value : α → β} {items : List α}
    (hmin : ∀ a ∈ items, minBytes ≤ size a)
    (h : ∀ a ∈ items, Agrees (item a) (counts a) (size a) read (value a)) :
    Agrees (w.counted item items)
      (items.length :: items.flatMap counts) (COUNT + (items.map size).sum)
      (Reader.many w.little minBytes read) (items.map value) :=
  agrees_counted w read.times (length_mul_le_sum hmin) (agrees_each h)

/-! ## Parts -/

theorem agrees_coords (w : Writer) (base : UInt32) (coords : Coords) :
    Agrees (w.coords coords) [coords.len] (w.sizer.coords coords)
      (Reader.coords (w.head base)) (coords.normalised w.dim) := by
  have hpieces : List.Forall₂ (fun xs a => Reads (Reader.position (w.head base)) xs a)
      (coords.positions.map w.position) (coords.positions.map (fit w.dim)) := by
    rw [List.forall₂_map_left_iff, List.forall₂_map_right_iff, List.forall₂_same]
    exact fun position _ => reads_position w base position
  have hreads := Reads.times hpieces
  rw [List.length_map, Coords.positions_length, ← List.flatMap_def] at hreads
  have hpositions : Agrees (some (coords.positions.flatMap w.position)) []
      (coords.len * (8 * w.dim.size)) ((Reader.position (w.head base)).times coords.len)
      (coords.positions.map (fit w.dim)) :=
    fun _ => ⟨_, rfl, by simp [List.length_flatMap], hreads⟩
  have hmin : coords.len * (w.dim.size * 8) ≤ coords.len * (8 * w.dim.size) := by
    rw [Nat.mul_comm 8]
  have h := agrees_counted w (fun n => do
    let positions ← (Reader.position (w.head base)).times n
    pure ({ dim := some w.dim, values := positions.flatten } : Coords)) hmin (hpositions.map _)
  rw [coords_eq]
  exact h

theorem agrees_lineString (w : Writer) (base : UInt32) (line : LineString) :
    Agrees (w.coords line.coords) line.counts (w.sizer.coords line.coords)
      (Reader.lineString (w.head base)) (line.normalised w.dim) :=
  (agrees_coords w base line.coords).map _

theorem agrees_circularString (w : Writer) (base : UInt32) (arc : CircularString) :
    Agrees (w.coords arc.coords) arc.counts (w.sizer.coords arc.coords)
      (Reader.circularString (w.head base)) (arc.normalised w.dim) :=
  (agrees_coords w base arc.coords).map _

theorem agrees_point (w : Writer) (base : UInt32) (point : Point) :
    Agrees (some (w.position (point.coord.getD []))) [] w.sizer.position
      (Reader.point (w.head base)) (point.normalised w.dim) :=
  fun _ => ⟨_, rfl, position_length w _, (reads_position w base _).map _⟩

theorem agrees_polygon (w : Writer) (base : UInt32) (polygon : Polygon) :
    Agrees (w.counted (fun ring => w.coords ring.coords) polygon.rings)
      polygon.counts (COUNT + (polygon.rings.map fun ring => w.sizer.coords ring.coords).sum)
      (Reader.polygon (w.head base)) (polygon.normalised w.dim) :=
  (agrees_many w (fun _ _ => Nat.le_add_right _ _) fun ring _ =>
    agrees_lineString w base ring).map _

theorem reads_headerOf (w : Writer) {base : UInt32} {bases : List UInt32} (within : String)
    (hbase : POINT ≤ base ∧ base ≤ MULTI_SURFACE) (hbases : base ∈ bases) :
    Reads (Reader.headerOf bases within) (w.header base) (w.head base) := by
  intro before rest
  have hheader := reads_header w hbase before rest
  have hcontains : bases.contains (w.head base).base = true := List.contains_iff_mem.2 hbases
  unfold Reader.headerOf
  simp only [Bind.bind, StateT.bind, Except.bind, get, getThe, MonadStateOf.get, StateT.get,
    Pure.pure, Except.pure, hheader, hcontains, if_true, StateT.pure]

theorem Agrees.headerOf {α : Type} {w : Writer} {base : UInt32} {bases : List UInt32}
    {within : String} {written : Option Bytes} {counts : List Nat} {size : Nat}
    {body : Header → Reader α} {value : α} (hbase : POINT ≤ base ∧ base ≤ MULTI_SURFACE)
    (hbases : base ∈ bases) (h : Agrees written counts size (body (w.head base)) value) :
    Agrees (written.bind fun bytes => some (w.header base ++ bytes)) counts (HEADER + size)
      (do let header ← Reader.headerOf bases within; body header) value := by
  intro hcounts
  obtain ⟨bytes, rfl, hlength, hreads⟩ := h hcounts
  exact ⟨_, rfl, by simp [hlength], (reads_headerOf w within hbase hbases).bind hreads⟩

theorem agrees_curvePart (w : Writer) (part : CurvePart) :
    Agrees (w.curvePart part) part.counts (HEADER + w.sizer.coords part.coords)
      Reader.curvePart (part.normalised w.dim) := by
  cases part with
  | linear line =>
    refine Agrees.headerOf (by decide) (by decide) ?_
    rw [Writer.head_base, if_pos rfl]
    exact (agrees_lineString w LINE_STRING line).map _
  | circular arc =>
    refine Agrees.headerOf (by decide) (by decide) ?_
    rw [Writer.head_base, if_neg (show CIRCULAR_STRING ≠ LINE_STRING by decide)]
    exact (agrees_circularString w CIRCULAR_STRING arc).map _

theorem agrees_compoundCurve (w : Writer) (base : UInt32) (curve : CompoundCurve) :
    Agrees (w.counted w.curvePart curve.parts)
      curve.counts (COUNT + (curve.parts.map fun part => HEADER + w.sizer.coords part.coords).sum)
      (Reader.compoundCurve (w.head base)) (curve.normalised w.dim) :=
  (agrees_many w (fun _ _ => Nat.le_add_right _ _) fun part _ => agrees_curvePart w part).map _

theorem agrees_curve (w : Writer) (within : String) (curve : Curve) :
    Agrees (w.curve curve) curve.counts (w.sizer.curve curve) (Reader.curve within)
      (curve.normalised w.dim) := by
  cases curve with
  | linear line =>
    refine Agrees.headerOf (by decide) (by decide) ?_
    rw [Writer.head_base, if_pos rfl]
    exact (agrees_lineString w LINE_STRING line).map _
  | circular arc =>
    refine Agrees.headerOf (by decide) (by decide) ?_
    rw [Writer.head_base, if_neg (show CIRCULAR_STRING ≠ LINE_STRING by decide), if_pos rfl]
    exact (agrees_circularString w CIRCULAR_STRING arc).map _
  | compound curve =>
    rw [Writer.curve, Writer.compoundCurve, Sizer.curve, Sizer.compoundCurve, Nat.add_assoc]
    refine Agrees.headerOf (by decide) (by decide) ?_
    rw [Writer.head_base, if_neg (show COMPOUND_CURVE ≠ LINE_STRING by decide),
      if_neg (show COMPOUND_CURVE ≠ CIRCULAR_STRING by decide)]
    exact (agrees_compoundCurve w COMPOUND_CURVE curve).map _

theorem Sizer.header_le_curve (s : Sizer) (curve : Curve) : HEADER ≤ s.curve curve := by
  cases curve with
  | linear line => exact Nat.le_add_right _ _
  | circular arc => exact Nat.le_add_right _ _
  | compound curve =>
    rw [Sizer.curve, Sizer.compoundCurve, Nat.add_assoc]
    exact Nat.le_add_right _ _

theorem agrees_curvePolygon (w : Writer) (base : UInt32) (polygon : CurvePolygon) :
    Agrees (w.counted w.curve polygon.rings) polygon.counts
      (COUNT + (polygon.rings.map w.sizer.curve).sum)
      (Reader.curvePolygon (w.head base)) (polygon.normalised w.dim) :=
  (agrees_many w (fun ring _ => w.sizer.header_le_curve ring) fun ring _ =>
    agrees_curve w "CurvePolygon" ring).map _

theorem agrees_surface (w : Writer) (surface : Surface) :
    Agrees (w.surface surface) surface.counts (w.sizer.surface surface) Reader.surface
      (surface.normalised w.dim) := by
  cases surface with
  | polygon polygon =>
    rw [Writer.surface, Writer.polygon, Sizer.surface, Sizer.polygon, Nat.add_assoc]
    refine Agrees.headerOf (by decide) (by decide) ?_
    rw [Writer.head_base, if_pos rfl]
    exact (agrees_polygon w POLYGON polygon).map _
  | curvePolygon polygon =>
    rw [Writer.surface, Writer.curvePolygon, Sizer.surface, Sizer.curvePolygon, Nat.add_assoc]
    refine Agrees.headerOf (by decide) (by decide) ?_
    rw [Writer.head_base, if_neg (show CURVE_POLYGON ≠ POLYGON by decide)]
    exact (agrees_curvePolygon w CURVE_POLYGON polygon).map _

theorem Sizer.header_le_surface (s : Sizer) (surface : Surface) : HEADER ≤ s.surface surface := by
  cases surface with
  | polygon polygon =>
    rw [Sizer.surface, Sizer.polygon, Nat.add_assoc]
    exact Nat.le_add_right _ _
  | curvePolygon polygon =>
    rw [Sizer.surface, Sizer.curvePolygon, Nat.add_assoc]
    exact Nat.le_add_right _ _

theorem Agrees.fmap {α β : Type} {written : Option Bytes} {counts : List Nat} {size : Nat}
    {read : Reader α} {value : α} (h : Agrees written counts size read value) (f : α → β) :
    Agrees written counts size (f <$> read) (f value) := by
  rw [map_eq_pure_bind]
  exact h.map f

theorem agrees_members {α β : Type} (w : Writer) {base : UInt32} (within : String)
    {item : α → Option Bytes} {counts : α → List Nat} {size : α → Nat} {body : Header → Reader β}
    {value : α → β} {items : List α} (hbase : POINT ≤ base ∧ base ≤ MULTI_SURFACE)
    (h : ∀ a ∈ items, Agrees (item a) (counts a) (size a) (body (w.head base)) (value a)) :
    Agrees (w.counted (fun a => (item a).bind fun bytes => some (w.header base ++ bytes)) items)
      (items.length :: items.flatMap counts) (COUNT + (items.map fun a => HEADER + size a).sum)
      (Reader.many w.little HEADER (Reader.member base within body)) (items.map value) :=
  agrees_many w (fun _ _ => Nat.le_add_right _ _) fun a ha =>
    Agrees.headerOf hbase (List.mem_singleton.2 rfl) (h a ha)

/-! ## Geometries -/

theorem point_eq (w : Writer) (point : Point) :
    w.point point = w.header POINT ++ w.position (point.coord.getD []) := by
  unfold Writer.point
  cases point.coord <;> rfl

theorem agrees_point_member (w : Writer) {points : List Point} :
    Agrees (w.counted (fun p => some (w.point p)) points) [points.length]
      (COUNT + points.length * (HEADER + w.sizer.position))
      (Reader.many w.little HEADER (Reader.member POINT "MultiPoint" Reader.point))
      (points.map (·.normalised w.dim)) := by
  have h := agrees_members w "MultiPoint" (show POINT ≤ POINT ∧ POINT ≤ MULTI_SURFACE by decide)
    fun point (_ : point ∈ points) => agrees_point w POINT point
  have hcounts : points.flatMap (fun _ => ([] : List Nat)) = [] := by simp
  simp only [Option.bind_some, ← point_eq, List.map_const', List.sum_replicate_nat, hcounts] at h
  exact h

theorem Sizer.header_le_geometry (s : Sizer) (geometry : Geometry) :
    HEADER ≤ s.geometry geometry := by
  cases geometry with
  | compoundCurve curve => exact s.header_le_curve (.compound curve)
  | polygon polygon => exact s.header_le_surface (.polygon polygon)
  | curvePolygon polygon => exact s.header_le_surface (.curvePolygon polygon)
  | _ =>
    simp only [Sizer.geometry, Sizer.lineString, Nat.add_assoc]
    exact Nat.le_add_right _ _

theorem agrees_geometry (w : Writer) (geometry : Geometry) :
    ∀ depth, w.sizer.geometry geometry ≤ depth →
      Agrees (w.geometry geometry) geometry.counts (w.sizer.geometry geometry)
        (Reader.geometry depth) (geometry.normalised w.dim) := by
  induction geometry using Geometry.memberInduction with
  | step geometry ih =>
    intro depth hdepth
    have hpos := w.sizer.header_le_geometry geometry
    obtain ⟨depth, rfl⟩ : ∃ d, depth = d + 1 := ⟨depth - 1, by simp [HEADER] at hpos; omega⟩
    unfold Reader.geometry
    cases geometry with
    | point point =>
      rw [Writer.geometry, point_eq]
      show Agrees ((some (w.position (point.coord.getD []))).bind fun bytes =>
        some (w.header POINT ++ bytes)) [] (HEADER + w.sizer.position) _ _
      exact Agrees.header (by decide) ((agrees_point w POINT point).fmap Geometry.point)
    | lineString line =>
      exact Agrees.header (by decide)
        ((agrees_lineString w LINE_STRING line).fmap Geometry.lineString)
    | polygon polygon =>
      rw [Writer.geometry, Writer.polygon, Sizer.geometry, Sizer.polygon, Nat.add_assoc]
      exact Agrees.header (by decide) ((agrees_polygon w POLYGON polygon).fmap Geometry.polygon)
    | multiPoint points =>
      rw [Writer.geometry, Sizer.geometry, Nat.add_assoc]
      exact Agrees.header (by decide) ((agrees_point_member w).fmap Geometry.multiPoint)
    | multiLineString lines =>
      rw [Writer.geometry, Sizer.geometry, Nat.add_assoc]
      exact Agrees.header (by decide) ((agrees_members w "MultiLineString" (by decide) fun line _ =>
        agrees_lineString w LINE_STRING line).fmap Geometry.multiLineString)
    | multiPolygon polygons =>
      rw [Writer.geometry, Sizer.geometry, Nat.add_assoc]
      have hpolygon : w.sizer.polygon = fun polygon => HEADER +
          (COUNT + (polygon.rings.map fun ring => w.sizer.coords ring.coords).sum) :=
        funext fun polygon => Nat.add_assoc _ _ _
      rw [hpolygon]
      exact Agrees.header (by decide) ((agrees_members w "MultiPolygon" (by decide) fun polygon _ =>
        agrees_polygon w POLYGON polygon).fmap Geometry.multiPolygon)
    | geometryCollection members =>
      rw [Writer.geometry_collection, Sizer.geometry, Sizer.geometries_eq_sum, Nat.add_assoc,
        Geometry.counts, Geometry.countsOfMembers_eq_flatMap, Geometry.normalised,
        Geometry.normalisedMembers_eq_map]
      have hmembers : ∀ member ∈ members,
          Agrees (w.geometry member) member.counts (w.sizer.geometry member)
            (Reader.geometry depth) (member.normalised w.dim) := by
        intro member hmember
        refine ih member hmember depth ?_
        have hle : w.sizer.geometry member ≤ (members.map w.sizer.geometry).sum :=
          List.le_sum_of_mem (List.mem_map_of_mem hmember)
        rw [Sizer.geometry, Sizer.geometries_eq_sum] at hdepth
        simp only [HEADER, COUNT] at hdepth
        omega
      exact Agrees.header (by decide)
        ((agrees_many w (fun member _ => w.sizer.header_le_geometry member) hmembers).fmap
          Geometry.geometryCollection)
    | circularString arc =>
      exact Agrees.header (by decide)
        ((agrees_circularString w CIRCULAR_STRING arc).fmap Geometry.circularString)
    | compoundCurve curve =>
      rw [Writer.geometry, Writer.compoundCurve, Sizer.geometry, Sizer.compoundCurve, Nat.add_assoc]
      exact Agrees.header (by decide)
        ((agrees_compoundCurve w COMPOUND_CURVE curve).fmap Geometry.compoundCurve)
    | curvePolygon polygon =>
      rw [Writer.geometry, Writer.curvePolygon, Sizer.geometry, Sizer.curvePolygon, Nat.add_assoc]
      exact Agrees.header (by decide)
        ((agrees_curvePolygon w CURVE_POLYGON polygon).fmap Geometry.curvePolygon)
    | multiCurve curves =>
      rw [Writer.geometry, Sizer.geometry, Nat.add_assoc]
      exact Agrees.header (by decide)
        ((agrees_many w (fun curve _ => w.sizer.header_le_curve curve) fun curve _ =>
          agrees_curve w "MultiCurve" curve).fmap Geometry.multiCurve)
    | multiSurface surfaces =>
      rw [Writer.geometry, Sizer.geometry, Nat.add_assoc]
      exact Agrees.header (by decide)
        ((agrees_many w (fun surface _ => w.sizer.header_le_surface surface) fun surface _ =>
          agrees_surface w surface).fmap Geometry.multiSurface)

/-- What is written is read back normalised, and is as long as it was said to
be. -/
theorem readWkb_writeWkb (geometry : Geometry) (endianness : Endianness)
    (hcounts : ∀ n ∈ geometry.counts, n < 2 ^ 32) :
    ∃ bytes, writeWkb geometry endianness = some bytes ∧ bytes.length = wkbSize geometry ∧
      readWkb bytes = .ok (geometry.normalised (geometry.dim.getD .xy)) := by
  let w : Writer := { endianness, dim := geometry.dim.getD .xy }
  obtain ⟨bytes, hwritten, hlength, hreads⟩ := agrees_geometry w geometry
    (w.sizer.geometry geometry + 1) (Nat.le_succ _) hcounts
  refine ⟨bytes, hwritten, hlength, ?_⟩
  have hread := hreads [] []
  rw [List.append_nil, List.nil_append, ← hlength] at hread
  unfold readWkb
  show (Reader.geometry (bytes.length + 1) (.between [] bytes)).bind _ = _
  rw [hread]
  simp [Except.bind, Pure.pure, Except.pure, w]

/-- A collection of a polygon without an exterior and a point in space. -/
def holeAndPoint : Geometry :=
  .geometryCollection [
    .polygon {
      exterior := none
      interiors := [{ coords := { dim := some .xy, values := [⟨0⟩, ⟨0⟩, ⟨1⟩, ⟨1⟩, ⟨0⟩, ⟨0⟩] } }] },
    .point { coord := some [⟨1⟩, ⟨2⟩, ⟨3⟩] }]

theorem readWkb_writeWkb_holeAndPoint :
    ∃ bytes, writeWkb holeAndPoint .big = some bytes ∧ bytes.length = wkbSize holeAndPoint ∧
      readWkb bytes = .ok (holeAndPoint.normalised (holeAndPoint.dim.getD .xy)) :=
  readWkb_writeWkb holeAndPoint .big (by decide)

end Xeibe.Geom.Wkb
