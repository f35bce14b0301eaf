import Xeibe.Geom.Wkb

/-!
# What reading WKB takes

The reader of WKB again, watched: the ordinates it reserves for a sequence of
positions, each time with the bytes that are left, and how deep its calls nest.
`Follows` says that it does what the reader does, without a panic and without
reserving more than the bytes can hold.
-/

namespace Xeibe.Geom.Wkb

open Xeibe.Lib

/-! ## The watched reader -/

inductive Fault where
  | message (text : String)
  /-- `unreachable!("checked in header()")`. -/
  | unreachable
  /-- A `usize` overflows. -/
  | overflow
  /-- The bound on the nesting that the model has in place of the stack. -/
  | deep
deriving DecidableEq

structure Watch where
  cursor : Cursor UInt8
  /-- The ordinates reserved and the bytes left then, the last reservation first. -/
  reserved : List (Nat × Nat)
  /-- The deepest call of `geometry` so far. -/
  deepest : Nat

def Watched (α : Type) := Watch → Except Fault α × Watch

namespace Watched

instance : Monad Watched where
  pure a := fun w => (.ok a, w)
  bind x f := fun w =>
    match x w with
    | (.ok a, w') => f a w'
    | (.error e, w') => (.error e, w')

/-- A reader that neither reserves nor nests. -/
def lift {α : Type} (r : Reader α) : Watched α := fun w =>
  match r w.cursor with
  | .ok (a, c) => (.ok a, { w with cursor := c })
  | .error e => (.error (.message e), w)

def fail {α : Type} (fault : Fault) : Watched α := fun w => (.error fault, w)

/-- `coords.values.reserve(n * size)`. -/
def reserve (n size : Nat) : Watched Unit := fun w =>
  if n * size > usizeMax then (.error .overflow, w)
  else (.ok (), { w with reserved := (n * size, w.cursor.left.length) :: w.reserved })

/-- A call of `geometry`, so many calls deep. -/
def enter (level : Nat) : Watched Unit := fun w =>
  (.ok (), { w with deepest := max w.deepest level })

def times {α : Type} (x : Watched α) : Nat → Watched (List α)
  | 0 => pure []
  | n + 1 => do
    let a ← x
    let rest ← times x n
    pure (a :: rest)

def coords (header : Header) : Watched Coords := do
  let n ← lift (Reader.count header.little (header.size * 8))
  reserve n header.dim.size
  let positions ← times (lift (Reader.position header)) n
  pure { dim := some header.dim, values := positions.flatten }

def lineString (header : Header) : Watched LineString := do
  let coords ← coords header
  pure { coords }

def circularString (header : Header) : Watched CircularString := do
  let coords ← coords header
  pure { coords, computed := [] }

def many {α : Type} (little : Bool) (minBytes : Nat) (item : Watched α) : Watched (List α) := do
  let n ← lift (Reader.count little minBytes)
  times item n

def polygon (header : Header) : Watched Polygon := do
  let rings ← many header.little COUNT (lineString header)
  pure { exterior := rings.head?, interiors := rings.tail }

def curvePart : Watched CurvePart := do
  let header ← lift (Reader.headerOf [LINE_STRING, CIRCULAR_STRING] "CompoundCurve")
  if header.base = LINE_STRING then
    let line ← lineString header
    pure (.linear line)
  else
    let arc ← circularString header
    pure (.circular arc)

def compoundCurve (header : Header) : Watched CompoundCurve := do
  let parts ← many header.little HEADER curvePart
  pure { parts }

def curve (within : String) : Watched Curve := do
  let header ← lift (Reader.headerOf [LINE_STRING, CIRCULAR_STRING, COMPOUND_CURVE] within)
  if header.base = LINE_STRING then
    let line ← lineString header
    pure (.linear line)
  else if header.base = CIRCULAR_STRING then
    let arc ← circularString header
    pure (.circular arc)
  else
    let compound ← compoundCurve header
    pure (.compound compound)

def curvePolygon (header : Header) : Watched CurvePolygon := do
  let rings ← many header.little HEADER (curve "CurvePolygon")
  pure { exterior := rings.head?, interiors := rings.tail }

def member {α : Type} (base : UInt32) (within : String) (body : Header → Watched α) :
    Watched α := do
  let header ← lift (Reader.headerOf [base] within)
  body header

def surface : Watched Surface := do
  let header ← lift (Reader.headerOf [POLYGON, CURVE_POLYGON] "MultiSurface")
  if header.base = POLYGON then
    let polygon ← polygon header
    pure (.polygon polygon)
  else
    let polygon ← curvePolygon header
    pure (.curvePolygon polygon)

def body (geometry : Watched Geometry) (header : Header) : Watched Geometry :=
  let little := header.little
  if header.base = POINT then .point <$> lift (Reader.point header)
  else if header.base = LINE_STRING then .lineString <$> lineString header
  else if header.base = POLYGON then .polygon <$> polygon header
  else if header.base = MULTI_POINT then
    .multiPoint <$> many little HEADER
      (member POINT "MultiPoint" fun header => lift (Reader.point header))
  else if header.base = MULTI_LINE_STRING then
    .multiLineString <$> many little HEADER (member LINE_STRING "MultiLineString" lineString)
  else if header.base = MULTI_POLYGON then
    .multiPolygon <$> many little HEADER (member POLYGON "MultiPolygon" polygon)
  else if header.base = GEOMETRY_COLLECTION then
    .geometryCollection <$> many little HEADER geometry
  else if header.base = CIRCULAR_STRING then .circularString <$> circularString header
  else if header.base = COMPOUND_CURVE then .compoundCurve <$> compoundCurve header
  else if header.base = CURVE_POLYGON then .curvePolygon <$> curvePolygon header
  else if header.base = MULTI_CURVE then
    .multiCurve <$> many little HEADER (curve "MultiCurve")
  else if header.base = MULTI_SURFACE then .multiSurface <$> many little HEADER surface
  else fail .unreachable

/-- A geometry that is read `level` calls deep; `depth` bounds the calls inside it. -/
def geometry : Nat → Nat → Watched Geometry
  | 0, _ => fail .deep
  | depth + 1, level => do
    enter level
    let header ← lift Reader.header
    body (geometry depth (level + 1)) header

end Watched

/-- Reading these bytes from the first one on. -/
def watchWkb (bytes : Bytes) : Except Fault Geometry × Watch :=
  let (result, w) := Watched.geometry (bytes.length + 1) 1 ⟨⟨bytes, 0⟩, [], 0⟩
  match result with
  | .error fault => (.error fault, w)
  | .ok geometry =>
    if w.cursor.pos ≠ bytes.length then
      (.error (.message s!"{bytes.length - w.cursor.pos} bytes after the geometry"), w)
    else (.ok geometry, w)

/-! ## Readers go forward -/

/-- What `r` gives it has read inside the input, and `Q` holds of it. -/
def Forward {α : Type} (r : Reader α) (Q : α → Prop) : Prop :=
  ∀ c a c', c.pos ≤ c.input.length → r c = .ok (a, c') →
    c'.input = c.input ∧ c.pos ≤ c'.pos ∧ c'.pos ≤ c'.input.length ∧ Q a

namespace Forward

variable {α γ : Type} {r : Reader α} {Q : α → Prop} {R : γ → Prop}

theorem pure {a : α} (h : Q a) : Forward (Pure.pure a) Q := by
  intro c a' c' hc hr
  obtain ⟨rfl, rfl⟩ := Prod.mk.inj (Except.ok.inj hr)
  exact ⟨rfl, Nat.le_refl _, hc, h⟩

theorem bind {f : α → Reader γ} (hr : Forward r Q) (hf : ∀ a, Q a → Forward (f a) R) :
    Forward (r >>= f) R := by
  intro c b c' hc h
  simp only [Bind.bind, StateT.bind, Except.bind] at h
  split at h
  · cases h
  · rename_i p hp
    obtain ⟨a, d⟩ := p
    obtain ⟨hin, hle, hd, ha⟩ := hr c a d hc hp
    obtain ⟨hin', hle', hc', hb⟩ := hf a ha d b c' hd h
    exact ⟨hin'.trans hin, Nat.le_trans hle hle', hc', hb⟩

theorem fail {message : String} : Forward (throw message : Reader α) Q := by
  intro c a c' _ h
  cases h

theorem get : Forward (MonadState.get : Reader (Cursor UInt8)) fun _ => True := by
  intro c a c' hc h
  obtain ⟨rfl, rfl⟩ := Prod.mk.inj (Except.ok.inj h)
  exact ⟨rfl, Nat.le_refl _, hc, trivial⟩

theorem ite {p : Prop} [Decidable p] {s : Reader α} (hr : p → Forward r Q)
    (hs : ¬ p → Forward s Q) : Forward (if p then r else s) Q := by
  split
  · exact hr ‹_›
  · exact hs ‹_›

theorem times (hr : Forward r fun _ => True) (n : Nat) :
    Forward (Parser.times r n) fun _ => True := by
  induction n with
  | zero => exact pure trivial
  | succ n ih => exact hr.bind fun _ _ => ih.bind fun _ _ => pure trivial

end Forward

section Forward

open Reader

theorem forward_take (n : Nat) : Forward (take n) fun _ => True := by
  intro c a c' hc h
  unfold take at h
  by_cases hn : c.pos + n ≤ c.input.length
  · simp only [Bind.bind, StateT.bind, Except.bind, get, getThe, MonadStateOf.get, StateT.get,
      Pure.pure, Except.pure, hn, if_true, set, StateT.set, StateT.pure] at h
    obtain ⟨rfl, rfl⟩ := Prod.mk.inj (Except.ok.inj h)
    exact ⟨rfl, Nat.le_add_right _ _, hn, trivial⟩
  · simp only [Bind.bind, StateT.bind, Except.bind, get, getThe, MonadStateOf.get, StateT.get,
      Pure.pure, Except.pure, hn, if_false] at h
    cases h

theorem forward_u32 (little : Bool) : Forward (u32 little) fun _ => True :=
  (forward_take 4).bind fun _ _ => .pure trivial

theorem forward_f64 (little : Bool) : Forward (f64 little) fun _ => True :=
  (forward_take 8).bind fun _ _ => .pure trivial

theorem forward_count (little : Bool) (minBytes : Nat) :
    Forward (count little minBytes) fun n => n < 2 ^ 32 := by
  refine (forward_u32 little).bind fun n _ => Forward.get.bind fun c _ => ?_
  dsimp only
  exact .ite (fun _ => Forward.fail.bind fun _ (h : False) => h.elim) fun _ => .pure n.toNat_lt

theorem forward_order (order : Bytes) :
    Forward (do
      let r ← MonadState.get
      match order with
      | [0] => pure false
      | [1] => pure true
      | other => throw s!"byte order {other.headD 0} at byte {r.pos - 1}" : Reader Bool)
      fun _ => True := by
  refine Forward.get.bind fun c _ => ?_
  split
  · exact .pure trivial
  · exact .pure trivial
  · exact .fail

theorem forward_byteOrder : Forward byteOrder fun _ => True :=
  (forward_take 1).bind fun order _ => forward_order order

/-- What a header says: a type there is, and no less ordinates than are kept. -/
def Header.Known (header : Header) : Prop :=
  (POINT ≤ header.base ∧ header.base ≤ MULTI_SURFACE) ∧ header.dim.size ≤ header.size

theorem known_of_parseCode {little : Bool} {code base : UInt32} {z m : Bool}
    (h : parseCode code = some (base, z, m)) :
    Header.Known { little, base, size := 2 + z.toNat + m.toNat, dim := if z then .xyz else .xy } := by
  unfold parseCode at h
  dsimp only at h
  split at h
  · rename_i hbase
    obtain ⟨zm, -, hzm⟩ := Option.map_eq_some_iff.mp h
    obtain ⟨rfl, -⟩ := Prod.mk.inj hzm
    refine ⟨hbase, ?_⟩
    cases z <;> simp [Dim.size]
  · cases h

theorem forward_headerBody (little : Bool) (code : UInt32) :
    Forward (headerBody little code) Header.Known := by
  have hsrid : ∀ rest : Reader Header, Forward rest Header.Known →
      Forward (if code &&& EWKB_SRID != 0 then u32 little >>= fun _ => rest else rest) Header.Known :=
    fun _ hrest => .ite (fun _ => (forward_u32 little).bind fun _ _ => hrest) fun _ => hrest
  unfold headerBody
  dsimp only
  refine hsrid _ ?_
  split
  · exact .fail
  · rename_i h
    exact .pure (known_of_parseCode h)

theorem forward_header : Forward header Header.Known :=
  forward_byteOrder.bind fun _ _ => (forward_u32 _).bind fun _ _ => forward_headerBody _ _

theorem forward_headerOf (bases : List UInt32) (within : String) :
    Forward (headerOf bases within) Header.Known := by
  refine Forward.get.bind fun _ _ => forward_header.bind fun header h => ?_
  exact .ite (fun _ => .pure h) fun _ => .fail

theorem forward_position (header : Header) : Forward (position header) fun _ => True :=
  ((forward_f64 _).times _).bind fun _ _ => .pure trivial

theorem forward_point (header : Header) : Forward (point header) fun _ => True :=
  (forward_position header).bind fun _ _ => .pure trivial

end Forward

/-! ## Watching changes nothing -/

section Bind

variable {α γ : Type} {x : Watched α} {f : α → Watched γ} {w : Watch}

theorem Watched.bind_ok {a : α} (h : (x w).1 = .ok a) : (x >>= f) w = f a (x w).2 := by
  simp only [Bind.bind]
  generalize x w = run at h
  obtain ⟨result, w'⟩ := run
  simp only at h
  subst h
  rfl

theorem Watched.bind_error {fault : Fault} (h : (x w).1 = .error fault) :
    (x >>= f) w = (.error fault, (x w).2) := by
  simp only [Bind.bind]
  generalize x w = run at h
  obtain ⟨result, w'⟩ := run
  simp only at h
  subst h
  rfl

end Bind

/-- The reader is inside the bytes, which could hold all that was reserved. -/
structure Watch.Ok (w : Watch) : Prop where
  inside : w.cursor.pos ≤ w.cursor.input.length
  held : ∀ e ∈ w.reserved, e.1 * 8 ≤ e.2

/-- Later in the same bytes. -/
structure Watch.Before (w w' : Watch) : Prop where
  input_eq : w'.cursor.input = w.cursor.input
  pos_le : w.cursor.pos ≤ w'.cursor.pos
  ok : w'.Ok

theorem Watch.Before.left_le {w w' : Watch} (h : w.Before w') :
    w'.cursor.left.length ≤ w.cursor.left.length := by
  have := h.pos_le
  simp only [Cursor.left, List.length_drop, h.input_eq]
  omega

theorem Watch.Before.trans {w w' w'' : Watch} (h : w.Before w') (h' : w'.Before w'') :
    w.Before w'' :=
  ⟨h'.input_eq.trans h.input_eq, Nat.le_trans h.pos_le h'.pos_le, h'.ok⟩

/-- Where fewer than `n` bytes are left, `x` does what `r` does, with nothing worse than
its errors; and `Q` holds of what it gives. -/
def Follows {α : Type} (n : Nat) (x : Watched α) (r : Reader α) (Q : α → Prop) : Prop :=
  ∀ w : Watch, w.Ok → w.cursor.left.length < n →
    w.Before (x w).2 ∧
      match r w.cursor with
      | .ok (a, c) => (x w).1 = .ok a ∧ (x w).2.cursor = c ∧ Q a
      | .error e => (x w).1 = .error (.message e)

namespace Follows

variable {α γ : Type} {n : Nat} {x : Watched α} {r : Reader α} {Q : α → Prop} {R : γ → Prop}

theorem pure {a : α} (h : Q a) : Follows n (Pure.pure a) (Pure.pure a) Q :=
  fun _ hw _ => ⟨⟨rfl, Nat.le_refl _, hw⟩, rfl, rfl, h⟩

/-- A sequence, where the first part leaves fewer than `m` bytes to the second. -/
theorem bindTo {m : Nat} {f : α → Watched γ} {g : α → Reader γ} (hx : Follows n x r Q)
    (hm : ∀ c a c', c.pos ≤ c.input.length → c.left.length < n → r c = .ok (a, c') →
      c'.left.length < m)
    (hf : ∀ a, Q a → Follows m (f a) (g a) R) : Follows n (x >>= f) (r >>= g) R := by
  intro w hw hn
  obtain ⟨hb, hrun⟩ := hx w hw hn
  have hbind : (r >>= g) w.cursor = match r w.cursor with
      | .ok (a, c) => g a c
      | .error e => .error e := by
    simp only [Bind.bind, StateT.bind, Except.bind]
    cases r w.cursor <;> rfl
  rw [hbind]
  cases hr : r w.cursor with
  | error e =>
    rw [hr] at hrun
    have hx' : (x >>= f) w = (.error (.message e), (x w).2) := Watched.bind_error hrun
    rw [hx']
    exact ⟨hb, rfl⟩
  | ok p =>
    obtain ⟨a, c⟩ := p
    rw [hr] at hrun
    obtain ⟨ha, rfl, hq⟩ := hrun
    have hx' : (x >>= f) w = f a (x w).2 := Watched.bind_ok ha
    rw [hx']
    obtain ⟨hb', hrun'⟩ := hf a hq (x w).2 hb.ok (hm _ _ _ hw.inside hn hr)
    exact ⟨hb.trans hb', hrun'⟩

theorem bind {f : α → Watched γ} {g : α → Reader γ} (hx : Follows n x r Q)
    (hf : ∀ a, Q a → Follows n (f a) (g a) R) : Follows n (x >>= f) (r >>= g) R := by
  refine hx.bindTo (fun c a c' hc hn hr => ?_) hf
  obtain ⟨hb, hrun⟩ := hx ⟨c, [], 0⟩ ⟨hc, by simp⟩ hn
  rw [hr] at hrun
  have hle := hb.left_le
  rw [hrun.2.1] at hle
  exact Nat.lt_of_le_of_lt hle hn

theorem lift (hr : Forward r Q) : Follows n (Watched.lift r) r Q := by
  intro w hw _
  unfold Watched.lift
  cases h : r w.cursor with
  | error e => exact ⟨⟨rfl, Nat.le_refl _, hw⟩, rfl⟩
  | ok p =>
    obtain ⟨a, c⟩ := p
    obtain ⟨hin, hle, hc, hq⟩ := hr w.cursor a c hw.inside h
    exact ⟨⟨hin, hle, hc, hw.held⟩, rfl, rfl, hq⟩

theorem map {f : α → γ} (hx : Follows n x r Q) : Follows n (f <$> x) (f <$> r) fun _ => True :=
  hx.bind (g := fun a => Pure.pure (f a)) fun _ _ => pure trivial

theorem ite {p : Prop} [Decidable p] {y : Watched α} {s : Reader α}
    (hx : p → Follows n x r Q) (hy : ¬ p → Follows n y s Q) :
    Follows n (if p then x else y) (if p then r else s) Q := by
  split
  · exact hx ‹_›
  · exact hy ‹_›

theorem times (hx : Follows n x r Q) (k : Nat) :
    Follows n (Watched.times x k) (Parser.times r k) fun _ => True := by
  induction k with
  | zero => exact pure trivial
  | succ k ih => exact hx.bind fun _ _ => ih.bind fun _ _ => pure trivial

theorem many (hx : Follows n x r Q) (little : Bool) (minBytes : Nat) :
    Follows n (Watched.many little minBytes x) (Reader.many little minBytes r) fun _ => True :=
  (lift (forward_count little minBytes)).bind fun k _ => hx.times k

end Follows

theorem count_le_left {little : Bool} {minBytes k : Nat} {c c' : Cursor UInt8}
    (h : Reader.count little minBytes c = .ok (k, c')) :
    min (k * minBytes) usizeMax ≤ c'.left.length := by
  unfold Reader.count at h
  simp only [Bind.bind, StateT.bind, Except.bind] at h
  split at h
  · cases h
  rename_i p hp
  obtain ⟨value, d⟩ := p
  simp only [get, getThe, MonadStateOf.get, StateT.get, Pure.pure, Except.pure] at h
  split at h
  · cases h
  · rename_i hle
    obtain ⟨rfl, rfl⟩ := Prod.mk.inj (Except.ok.inj h)
    omega

/-- The ordinates of as many positions as were counted. -/
def Watched.counted (header : Header) : Watched Nat := do
  let n ← lift (Reader.count header.little (header.size * 8))
  reserve n header.dim.size
  pure n

theorem follows_counted {n : Nat} {header : Header} (hk : header.Known) :
    Follows n (Watched.counted header) (Reader.count header.little (header.size * 8))
      fun _ => True := by
  intro w hw _
  have hdim : header.dim.size ≤ 3 := by cases header.dim <;> decide
  cases hrun : Reader.count header.little (header.size * 8) w.cursor with
  | error e =>
    have hx : Watched.counted header w = (.error (.message e), w) := by
      simp [Watched.counted, Bind.bind, Watched.lift, hrun]
    rw [hx]
    exact ⟨⟨rfl, Nat.le_refl _, hw⟩, rfl⟩
  | ok p =>
    obtain ⟨k, c⟩ := p
    obtain ⟨hin, hle, hc, hlt⟩ := forward_count _ _ w.cursor k c hw.inside hrun
    have hmin := count_le_left hrun
    have hsmall : k * header.dim.size ≤ k * 3 := Nat.mul_le_mul_left k hdim
    have hfits : ¬ k * header.dim.size > usizeMax := by
      unfold usizeMax
      omega
    have hheld : k * header.dim.size * 8 ≤ c.left.length := by
      have hwide : k * header.dim.size * 8 ≤ k * (header.size * 8) := by
        rw [Nat.mul_assoc]
        exact Nat.mul_le_mul_left k (Nat.mul_le_mul_right 8 hk.2)
      have : k * header.dim.size * 8 ≤ usizeMax := by
        unfold usizeMax
        omega
      omega
    have hx : Watched.counted header w = (.ok k, { w with
        cursor := c, reserved := (k * header.dim.size, c.left.length) :: w.reserved }) := by
      simp [Watched.counted, Bind.bind, Watched.lift, hrun, Watched.reserve, hfits, Pure.pure]
    rw [hx]
    refine ⟨⟨hin, hle, hc, ?_⟩, rfl, rfl, trivial⟩
    intro e he
    rcases List.mem_cons.mp he with rfl | he
    · exact hheld
    · exact hw.held e he

theorem Watched.coords_eq (header : Header) :
    Watched.coords header = counted header >>= fun n =>
      times (lift (Reader.position header)) n >>= fun positions =>
        pure { dim := some header.dim, values := positions.flatten } := by
  funext w
  unfold coords counted
  simp only [Bind.bind, lift]
  cases Reader.count header.little (header.size * 8) w.cursor with
  | error e => rfl
  | ok p =>
    simp only [reserve]
    split <;> rfl

section Parts

variable {n : Nat} {header : Header}

theorem follows_coords (hk : header.Known) :
    Follows n (Watched.coords header) (Reader.coords header) fun _ => True := by
  rw [Watched.coords_eq]
  refine (follows_counted hk).bind fun k _ => ?_
  exact ((Follows.lift (forward_position header)).times k).bind fun _ _ => .pure trivial

theorem follows_lineString (hk : header.Known) :
    Follows n (Watched.lineString header) (Reader.lineString header) fun _ => True :=
  (follows_coords hk).bind fun _ _ => .pure trivial

theorem follows_circularString (hk : header.Known) :
    Follows n (Watched.circularString header) (Reader.circularString header) fun _ => True :=
  (follows_coords hk).bind fun _ _ => .pure trivial

theorem follows_polygon (hk : header.Known) :
    Follows n (Watched.polygon header) (Reader.polygon header) fun _ => True :=
  ((follows_lineString hk).many _ _).bind fun _ _ => .pure trivial

theorem follows_curvePart : Follows n Watched.curvePart Reader.curvePart fun _ => True :=
  (Follows.lift (forward_headerOf _ _)).bind fun _ hk => .ite
    (fun _ => (follows_lineString hk).bind fun _ _ => .pure trivial)
    fun _ => (follows_circularString hk).bind fun _ _ => .pure trivial

theorem follows_compoundCurve :
    Follows n (Watched.compoundCurve header) (Reader.compoundCurve header) fun _ => True :=
  (follows_curvePart.many _ _).bind fun _ _ => .pure trivial

theorem follows_curve (within : String) :
    Follows n (Watched.curve within) (Reader.curve within) fun _ => True :=
  (Follows.lift (forward_headerOf _ _)).bind fun _ hk => .ite
    (fun _ => (follows_lineString hk).bind fun _ _ => .pure trivial)
    fun _ => .ite
      (fun _ => (follows_circularString hk).bind fun _ _ => .pure trivial)
      fun _ => follows_compoundCurve.bind fun _ _ => .pure trivial

theorem follows_curvePolygon :
    Follows n (Watched.curvePolygon header) (Reader.curvePolygon header) fun _ => True :=
  ((follows_curve _).many _ _).bind fun _ _ => .pure trivial

theorem follows_member {α : Type} {x : Header → Watched α} {r : Header → Reader α}
    (h : ∀ header, header.Known → Follows n (x header) (r header) fun _ => True)
    (base : UInt32) (within : String) :
    Follows n (Watched.member base within x) (Reader.member base within r) fun _ => True :=
  (Follows.lift (forward_headerOf _ _)).bind h

theorem follows_surface : Follows n Watched.surface Reader.surface fun _ => True :=
  (Follows.lift (forward_headerOf _ _)).bind fun _ hk => .ite
    (fun _ => (follows_polygon hk).bind fun _ _ => .pure trivial)
    fun _ => follows_curvePolygon.bind fun _ _ => .pure trivial

/-- A body follows where the members of a collection do. -/
theorem follows_body (hk : header.Known) {x : Watched Geometry} {r : Reader Geometry}
    (h : Follows n x r fun _ => True) :
    Follows n (Watched.body x header) (Reader.body r header) fun _ => True := by
  have hpoint (header : Header) :
      Follows n (Watched.lift (Reader.point header)) (Reader.point header) fun _ => True :=
    .lift (forward_point header)
  unfold Watched.body Reader.body
  dsimp only
  refine .ite (fun _ => (hpoint header).map) fun h1 => ?_
  refine .ite (fun _ => (follows_lineString hk).map) fun h2 => ?_
  refine .ite (fun _ => (follows_polygon hk).map) fun h3 => ?_
  refine .ite (fun _ => ((follows_member (fun h _ => hpoint h) _ _).many _ _).map) fun h4 => ?_
  refine .ite (fun _ => ((follows_member (fun _ => follows_lineString) _ _).many _ _).map)
    fun h5 => ?_
  refine .ite (fun _ => ((follows_member (fun _ => follows_polygon) _ _).many _ _).map)
    fun h6 => ?_
  refine .ite (fun _ => (h.many _ _).map) fun h7 => ?_
  refine .ite (fun _ => (follows_circularString hk).map) fun h8 => ?_
  refine .ite (fun _ => follows_compoundCurve.map) fun h9 => ?_
  refine .ite (fun _ => follows_curvePolygon.map) fun h10 => ?_
  refine .ite (fun _ => ((follows_curve _).many _ _).map) fun h11 => ?_
  -- the header has let through nothing but the last type
  have hlast : header.base = MULTI_SURFACE := by
    obtain ⟨hlow, hhigh⟩ := hk.1
    simp only [POINT, LINE_STRING, POLYGON, MULTI_POINT, MULTI_LINE_STRING, MULTI_POLYGON,
      GEOMETRY_COLLECTION, CIRCULAR_STRING, COMPOUND_CURVE, CURVE_POLYGON, MULTI_CURVE,
      MULTI_SURFACE, ← UInt32.toNat_inj, UInt32.le_iff_toNat_le] at *
    simp at *
    omega
  rw [if_pos hlast]
  exact (follows_surface.many _ _).map

end Parts

theorem reader_bind {α γ : Type} {r : Reader α} {f : α → Reader γ} {c c' : Cursor UInt8} {b : γ}
    (h : (r >>= f) c = .ok (b, c')) : ∃ a d, r c = .ok (a, d) ∧ f a d = .ok (b, c') := by
  simp only [Bind.bind, StateT.bind, Except.bind] at h
  split at h
  · cases h
  · rename_i p hp
    exact ⟨p.1, p.2, hp, h⟩

theorem take_pos {k : Nat} {c c' : Cursor UInt8} {bytes : Bytes}
    (h : Reader.take k c = .ok (bytes, c')) : c'.pos = c.pos + k := by
  unfold Reader.take at h
  simp only [Bind.bind, StateT.bind, Except.bind, get, getThe, MonadStateOf.get, StateT.get,
    Pure.pure, Except.pure] at h
  split at h
  · obtain ⟨-, rfl⟩ := Prod.mk.inj (Except.ok.inj h)
    rfl
  · cases h

theorem header_forward {c c' : Cursor UInt8} {header : Header} (hc : c.pos ≤ c.input.length)
    (h : Reader.header c = .ok (header, c')) : c'.left.length < c.left.length := by
  obtain ⟨little, d, horder, hrest⟩ := reader_bind h
  obtain ⟨order, e, htake, hcheck⟩ := reader_bind horder
  obtain ⟨hin, -, hle, -⟩ := forward_take 1 c order e hc htake
  have hpos := take_pos htake
  obtain ⟨hin', hpos', hle', -⟩ := forward_order order e little d hle hcheck
  have hafter : Forward (Reader.u32 little >>= Reader.headerBody little) Header.Known :=
    (forward_u32 little).bind fun _ _ => forward_headerBody little _
  obtain ⟨hin'', hpos'', -, -⟩ := hafter d header c' hle' hrest
  rw [hin', hin] at hin''
  simp only [Cursor.left, List.length_drop, hin'']
  rw [hin] at hle
  omega

theorem follows_geometry (depth level : Nat) :
    Follows depth (Watched.geometry depth level) (Reader.geometry depth) fun _ => True := by
  induction depth generalizing level with
  | zero => exact fun _ _ hn => absurd hn (Nat.not_lt_zero _)
  | succ depth ih =>
    have hrest : Follows (depth + 1)
        (Watched.lift Reader.header >>= Watched.body (Watched.geometry depth (level + 1)))
        (Reader.header >>= Reader.body (Reader.geometry depth)) fun _ => True := by
      refine (Follows.lift forward_header).bindTo (fun c a c' hc hn hr => ?_)
        fun _ hk => follows_body hk (ih (level + 1))
      have := header_forward hc hr
      omega
    intro w hw hn
    -- entering a call moves nothing
    obtain ⟨hb, hrun⟩ := hrest { w with deepest := max w.deepest level } ⟨hw.inside, hw.held⟩ hn
    exact ⟨⟨hb.input_eq, hb.pos_le, hb.ok⟩, hrun⟩

end Xeibe.Geom.Wkb
