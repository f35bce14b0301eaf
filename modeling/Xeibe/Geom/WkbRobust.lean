import Xeibe.Geom.WkbRoundTrip
import Xeibe.Geom.WkbWatched

/-!
# How deep reading WKB nests

The calls of the reader nest as deep as the collections in the bytes do, and
nothing else bounds them.
-/

namespace Xeibe.Geom.Wkb

open Xeibe.Lib

/-! ## How deep the calls nest -/

/-- `x` makes no call of `geometry`. -/
def Quiet {α : Type} (x : Watched α) : Prop := ∀ w, (x w).2.deepest = w.deepest

namespace Quiet

variable {α γ : Type} {x : Watched α}

theorem pure (a : α) : Quiet (Pure.pure a) := fun _ => rfl

theorem bind {f : α → Watched γ} (hx : Quiet x) (hf : ∀ a, Quiet (f a)) : Quiet (x >>= f) := by
  intro w
  cases h : (x w).1 with
  | error fault =>
    rw [Watched.bind_error h]
    exact hx w
  | ok a =>
    rw [Watched.bind_ok h, hf a, hx w]

theorem lift (r : Reader α) : Quiet (Watched.lift r) := by
  intro w
  unfold Watched.lift
  split <;> rfl

theorem reserve (n size : Nat) : Quiet (Watched.reserve n size) := by
  intro w
  unfold Watched.reserve
  split <;> rfl

theorem map {f : α → γ} (hx : Quiet x) : Quiet (f <$> x) := hx.bind fun _ => pure _

theorem ite {p : Prop} [Decidable p] {y : Watched α} (hx : Quiet x) (hy : Quiet y) :
    Quiet (if p then x else y) := by
  split
  · exact hx
  · exact hy

theorem times (hx : Quiet x) (k : Nat) : Quiet (Watched.times x k) := by
  induction k with
  | zero => exact pure []
  | succ k ih => exact hx.bind fun _ => ih.bind fun _ => pure _

theorem many (hx : Quiet x) (little : Bool) (minBytes : Nat) :
    Quiet (Watched.many little minBytes x) :=
  (lift _).bind fun k => hx.times k

end Quiet

theorem quiet_coords (header : Header) : Quiet (Watched.coords header) :=
  (Quiet.lift _).bind fun _ => (Quiet.reserve _ _).bind fun _ =>
    ((Quiet.lift _).times _).bind fun _ => .pure _

theorem quiet_lineString (header : Header) : Quiet (Watched.lineString header) :=
  (quiet_coords header).bind fun _ => .pure _

theorem quiet_circularString (header : Header) : Quiet (Watched.circularString header) :=
  (quiet_coords header).bind fun _ => .pure _

theorem quiet_polygon (header : Header) : Quiet (Watched.polygon header) :=
  ((quiet_lineString header).many _ _).bind fun _ => .pure _

theorem quiet_curvePart : Quiet Watched.curvePart :=
  (Quiet.lift _).bind fun _ =>
    .ite ((quiet_lineString _).bind fun _ => .pure _) ((quiet_circularString _).bind fun _ => .pure _)

theorem quiet_compoundCurve (header : Header) : Quiet (Watched.compoundCurve header) :=
  (quiet_curvePart.many _ _).bind fun _ => .pure _

theorem quiet_curve (within : String) : Quiet (Watched.curve within) :=
  (Quiet.lift _).bind fun _ => .ite ((quiet_lineString _).bind fun _ => .pure _)
    (.ite ((quiet_circularString _).bind fun _ => .pure _)
      ((quiet_compoundCurve _).bind fun _ => .pure _))

theorem quiet_curvePolygon (header : Header) : Quiet (Watched.curvePolygon header) :=
  ((quiet_curve _).many _ _).bind fun _ => .pure _

theorem quiet_member {α : Type} {x : Header → Watched α} (h : ∀ header, Quiet (x header))
    (base : UInt32) (within : String) : Quiet (Watched.member base within x) :=
  (Quiet.lift _).bind h

theorem quiet_surface : Quiet Watched.surface :=
  (Quiet.lift _).bind fun _ =>
    .ite ((quiet_polygon _).bind fun _ => .pure _) ((quiet_curvePolygon _).bind fun _ => .pure _)

theorem quiet_body {header : Header} (h : header.base ≠ GEOMETRY_COLLECTION)
    (x : Watched Geometry) : Quiet (Watched.body x header) := by
  unfold Watched.body
  dsimp only
  rw [if_neg h]
  have hpoint (header : Header) : Quiet (Watched.lift (Reader.point header)) := .lift _
  refine .ite (hpoint header).map (.ite (quiet_lineString header).map ?_)
  refine .ite (quiet_polygon header).map (.ite ((quiet_member hpoint _ _).many _ _).map ?_)
  refine .ite ((quiet_member quiet_lineString _ _).many _ _).map ?_
  refine .ite ((quiet_member quiet_polygon _ _).many _ _).map ?_
  refine .ite (quiet_circularString header).map (.ite (quiet_compoundCurve header).map ?_)
  refine .ite (quiet_curvePolygon header).map (.ite ((quiet_curve _).many _ _).map ?_)
  exact .ite (quiet_surface.many _ _).map fun _ => rfl

/-- The bytes at `c` open `levels` geometries inside one another: a geometry is read
there, and where it is a collection, one of its members that is reached opens one fewer. -/
inductive Opens : Nat → Cursor UInt8 → Nat → Prop
  | here {depth : Nat} {c : Cursor UInt8} : Opens (depth + 1) c 1
  | inside {depth : Nat} {c c₁ c₂ c₃ : Cursor UInt8} {header : Header} {n k levels : Nat}
      {members : List Geometry}
      (hheader : Reader.header c = .ok (header, c₁))
      (hbase : header.base = GEOMETRY_COLLECTION)
      (hcount : Reader.count header.little HEADER c₁ = .ok (n, c₂)) (hk : k < n)
      (hbefore : Parser.times (Reader.geometry depth) k c₂ = .ok (members, c₃))
      (hmember : Opens depth c₃ levels) : Opens (depth + 1) c (levels + 1)

theorem Watched.bind_deepest {α γ : Type} {x : Watched α} {f : α → Watched γ}
    (hf : ∀ a, Quiet (f a)) (w : Watch) : ((x >>= f) w).2.deepest = (x w).2.deepest := by
  cases h : (x w).1 with
  | error fault => rw [bind_error h]
  | ok a => rw [bind_ok h, hf a]

theorem times_of_error {r : Reader Geometry} {c c' : Cursor UInt8} {e : String} {k : Nat}
    {members : List Geometry} (hr : r c = .error e)
    (h : Parser.times r k c = .ok (members, c')) : k = 0 := by
  cases k with
  | zero => rfl
  | succ k =>
    exfalso
    obtain ⟨a, d, ha, -⟩ := reader_bind h
    rw [hr] at ha
    cases ha

theorem times_of_ok {r : Reader Geometry} {c c₁ c' : Cursor UInt8} {a : Geometry} {k : Nat}
    (hr : r c = .ok (a, c₁)) :
    (∃ members, Parser.times r (k + 1) c = .ok (members, c')) ↔
      ∃ members, Parser.times r k c₁ = .ok (members, c') := by
  constructor
  · rintro ⟨members, h⟩
    obtain ⟨b, d, hb, hrest⟩ := reader_bind h
    rw [hr] at hb
    obtain ⟨rfl, rfl⟩ := Prod.mk.inj (Except.ok.inj hb)
    obtain ⟨rest, d', hothers, hpure⟩ := reader_bind hrest
    obtain ⟨-, rfl⟩ := Prod.mk.inj (Except.ok.inj hpure)
    exact ⟨rest, hothers⟩
  · rintro ⟨members, h⟩
    refine ⟨a :: members, ?_⟩
    simp [Parser.times, Bind.bind, StateT.bind, Except.bind, hr, h, Pure.pure, StateT.pure,
      Except.pure]

/-- The members a loop reaches are those behind members that can be read. -/
theorem times_deepest {depth level : Nat}
    (ih : ∀ w : Watch, w.Ok → w.cursor.left.length < depth → ∀ t,
      t ≤ (Watched.geometry depth level w).2.deepest ↔
        t ≤ w.deepest ∨ ∃ levels, Opens depth w.cursor levels ∧ t + 1 ≤ level + levels)
    (n : Nat) (w : Watch) (hw : w.Ok) (hn : w.cursor.left.length < depth) (t : Nat) :
    t ≤ (Watched.times (Watched.geometry depth level) n w).2.deepest ↔
      t ≤ w.deepest ∨ ∃ k < n, ∃ c,
        (∃ members, Parser.times (Reader.geometry depth) k w.cursor = .ok (members, c)) ∧
          ∃ levels, Opens depth c levels ∧ t + 1 ≤ level + levels := by
  induction n generalizing w with
  | zero => simp [Watched.times, Pure.pure]
  | succ n ihn =>
    obtain ⟨hb, hrun⟩ := follows_geometry depth level w hw hn
    have hfirst := ih w hw hn t
    rw [Watched.times]
    cases hr : Reader.geometry depth w.cursor with
    | error e =>
      rw [hr] at hrun
      rw [Watched.bind_error hrun, hfirst]
      -- nothing behind a member that cannot be read is reached
      constructor
      · rintro (h | ⟨levels, hopens, hle⟩)
        · exact .inl h
        · exact .inr ⟨0, Nat.succ_pos n, w.cursor, ⟨[], rfl⟩, levels, hopens, hle⟩
      · rintro (h | ⟨k, -, c, ⟨members, hmembers⟩, levels, hopens, hle⟩)
        · exact .inl h
        · have hk := times_of_error hr hmembers
          subst hk
          obtain ⟨-, rfl⟩ := Prod.mk.inj (Except.ok.inj hmembers)
          exact .inr ⟨levels, hopens, hle⟩
    | ok p =>
      obtain ⟨a, c⟩ := p
      rw [hr] at hrun
      obtain ⟨ha, hc, -⟩ := hrun
      have hrest := ihn (Watched.geometry depth level w).2 hb.ok
        (Nat.lt_of_le_of_lt hb.left_le hn)
      rw [Watched.bind_ok ha, Watched.bind_deepest fun _ => Quiet.pure _, hrest, hfirst, hc,
        or_assoc]
      refine or_congr_right ?_
      constructor
      · rintro (⟨levels, hopens, hle⟩ | ⟨k, hk, d, hmembers, hopens⟩)
        · exact ⟨0, Nat.succ_pos n, w.cursor, ⟨[], rfl⟩, levels, hopens, hle⟩
        · exact ⟨k + 1, Nat.succ_lt_succ hk, d, (times_of_ok hr).mpr hmembers, hopens⟩
      · rintro ⟨k, hk, d, hmembers, hopens⟩
        cases k with
        | zero =>
          obtain ⟨_, hmembers⟩ := hmembers
          obtain ⟨-, rfl⟩ := Prod.mk.inj (Except.ok.inj hmembers)
          exact .inl hopens
        | succ k =>
          exact .inr ⟨k, Nat.lt_of_succ_lt_succ hk, d, (times_of_ok hr).mp hmembers, hopens⟩

theorem exists_opens {depth : Nat} {c : Cursor UInt8} {P : Nat → Prop} :
    (∃ levels, Opens (depth + 1) c levels ∧ P levels) ↔ P 1 ∨
      ∃ header c₁ n c₂, Reader.header c = .ok (header, c₁) ∧ header.base = GEOMETRY_COLLECTION ∧
        Reader.count header.little HEADER c₁ = .ok (n, c₂) ∧
          ∃ k < n, ∃ d, (∃ members, Parser.times (Reader.geometry depth) k c₂ = .ok (members, d)) ∧
            ∃ levels, Opens depth d levels ∧ P (levels + 1) := by
  constructor
  · rintro ⟨levels, hopens, hP⟩
    cases hopens with
    | here => exact .inl hP
    | inside hheader hbase hcount hk hbefore hmember =>
      exact .inr ⟨_, _, _, _, hheader, hbase, hcount, _, hk, _, ⟨_, hbefore⟩, _, hmember, hP⟩
  · rintro (hP | ⟨_, _, _, _, hheader, hbase, hcount, _, hk, _, ⟨_, hbefore⟩, _, hmember, hP⟩)
    · exact ⟨1, .here, hP⟩
    · exact ⟨_, .inside hheader hbase hcount hk hbefore hmember, hP⟩

theorem body_collection {header : Header} (h : header.base = GEOMETRY_COLLECTION)
    (x : Watched Geometry) :
    Watched.body x header = .geometryCollection <$> Watched.many header.little HEADER x := by
  unfold Watched.body
  rw [h]
  rfl

/-- A call is as deep as the bytes open geometries there. -/
theorem geometry_deepest (depth level : Nat) (w : Watch) (hw : w.Ok)
    (hn : w.cursor.left.length < depth) (t : Nat) :
    t ≤ (Watched.geometry depth level w).2.deepest ↔
      t ≤ w.deepest ∨ ∃ levels, Opens depth w.cursor levels ∧ t + 1 ≤ level + levels := by
  induction depth generalizing level w t with
  | zero => exact absurd hn (Nat.not_lt_zero _)
  | succ depth ih =>
    rw [exists_opens]
    let entered : Watch := { w with deepest := max w.deepest level }
    have hrun : Watched.geometry (depth + 1) level w =
        (Watched.lift Reader.header >>= Watched.body (Watched.geometry depth (level + 1)))
          entered := rfl
    have hentered : t ≤ entered.deepest ↔ t ≤ w.deepest ∨ t + 1 ≤ level + 1 := by
      show t ≤ max w.deepest level ↔ _
      omega
    rw [hrun]
    cases hheader : Reader.header w.cursor with
    | error e =>
      have hlift : Watched.lift Reader.header entered = (.error (.message e), entered) := by
        simp [Watched.lift, entered, hheader]
      rw [Watched.bind_error (congrArg Prod.fst hlift), hlift, hentered]
      simp
    | ok p =>
      obtain ⟨header, c₁⟩ := p
      let read : Watch := { entered with cursor := c₁ }
      have hlift : Watched.lift Reader.header entered = (.ok header, read) := by
        simp [Watched.lift, entered, read, hheader]
      rw [Watched.bind_ok (congrArg Prod.fst hlift), hlift]
      by_cases hbase : header.base = GEOMETRY_COLLECTION
      · obtain ⟨hin, -, hinside, -⟩ := forward_header w.cursor header c₁ hw.inside hheader
        have hfewer := header_forward hw.inside hheader
        rw [body_collection hbase]
        have hmap (x : Watched (List Geometry)) :
            ((Geometry.geometryCollection <$> x) read).2.deepest = (x read).2.deepest :=
          Watched.bind_deepest (fun _ => Quiet.pure _) read
        rw [hmap, Watched.many]
        cases hcount : Reader.count header.little HEADER c₁ with
        | error e =>
          have hlift : Watched.lift (Reader.count header.little HEADER) read =
              (.error (.message e), read) := by
            simp [Watched.lift, read, hcount]
          rw [Watched.bind_error (congrArg Prod.fst hlift), hlift]
          show t ≤ entered.deepest ↔ _
          rw [hentered]
          refine or_congr_right ⟨.inl, ?_⟩
          rintro (h | ⟨_, _, _, _, he, -, hcount', -⟩)
          · exact h
          · obtain ⟨rfl, rfl⟩ := Prod.mk.inj (Except.ok.inj he)
            rw [hcount] at hcount'
            cases hcount'
        | ok p =>
          obtain ⟨n, c₂⟩ := p
          obtain ⟨hin₂, hle₂, hinside₂, -⟩ := forward_count _ _ c₁ n c₂ hinside hcount
          let counted : Watch := { read with cursor := c₂ }
          have hlift : Watched.lift (Reader.count header.little HEADER) read =
              (.ok n, counted) := by
            simp [Watched.lift, read, counted, hcount]
          have hok : counted.Ok := ⟨hinside₂, hw.held⟩
          have hleft : counted.cursor.left.length < depth := by
            have hle : c₂.left.length ≤ c₁.left.length := by
              simp only [Cursor.left, List.length_drop, hin₂]
              omega
            show c₂.left.length < depth
            omega
          rw [Watched.bind_ok (congrArg Prod.fst hlift), hlift,
            times_deepest (fun w hw hn t => ih (level + 1) w hw hn t) n counted hok hleft t]
          show t ≤ entered.deepest ∨ _ ↔ _
          rw [hentered, or_assoc]
          refine or_congr_right (or_congr_right ?_)
          have hmore (levels : Nat) : level + 1 + levels = level + (levels + 1) := by omega
          constructor
          · rintro ⟨k, hk, d, hbefore, levels, hopens, hle⟩
            exact ⟨header, c₁, n, c₂, rfl, hbase, hcount, k, hk, d, hbefore, levels, hopens,
              hmore levels ▸ hle⟩
          · rintro ⟨_, _, _, _, he, -, hcount', k, hk, d, hbefore, levels, hopens, hle⟩
            obtain ⟨rfl, rfl⟩ := Prod.mk.inj (Except.ok.inj he)
            rw [hcount] at hcount'
            obtain ⟨rfl, rfl⟩ := Prod.mk.inj (Except.ok.inj hcount')
            exact ⟨k, hk, d, hbefore, levels, hopens, (hmore levels).symm ▸ hle⟩
      · rw [quiet_body hbase _ read]
        show t ≤ entered.deepest ↔ _
        rw [hentered]
        refine or_congr_right ⟨.inl, ?_⟩
        rintro (h | ⟨_, _, _, _, he, hbase', -⟩)
        · exact h
        · obtain ⟨rfl, -⟩ := Prod.mk.inj (Except.ok.inj he)
          exact absurd hbase' hbase

theorem Opens.le {depth levels m : Nat} {c : Cursor UInt8} (h : Opens depth c levels)
    (hm : 0 < m) (hle : m ≤ levels) : Opens depth c m := by
  induction h generalizing m with
  | here =>
    obtain rfl : m = 1 := by omega
    exact .here
  | inside hheader hbase hcount hk hbefore _ ih =>
    by_cases h1 : m = 1
    · subst h1
      exact .here
    · obtain ⟨k, rfl⟩ : ∃ k, m = k + 1 := ⟨m - 1, by omega⟩
      exact .inside hheader hbase hcount hk hbefore (ih (by omega) (by omega))

/-! ## Hostile bytes -/

/-- More than `bound` geometries stand inside one another. -/
def NestsBeyond (bound : Nat) (bytes : Bytes) : Prop :=
  Opens (bytes.length + 1) ⟨bytes, 0⟩ (bound + 1)

/-- Reading gives a geometry or an error, reserves nothing the bytes left cannot hold and
nests at most `bound` calls. -/
structure Robust (bound : Nat) (bytes : Bytes) : Prop where
  returns : (∃ geometry, (watchWkb bytes).1 = .ok geometry) ∨
    ∃ text, (watchWkb bytes).1 = .error (.message text)
  reserves : ∀ e ∈ (watchWkb bytes).2.reserved, e.1 * 8 ≤ e.2
  nests : (watchWkb bytes).2.deepest ≤ bound

theorem watchWkb_snd (bytes : Bytes) : (watchWkb bytes).2 =
    (Watched.geometry (bytes.length + 1) 1 ⟨⟨bytes, 0⟩, [], 0⟩).2 := by
  unfold watchWkb
  split
  rename_i result w h
  rw [h]
  split
  · rfl
  · split <;> rfl

theorem start_ok (bytes : Bytes) : Watch.Ok ⟨⟨bytes, 0⟩, [], 0⟩ := ⟨Nat.zero_le _, by simp⟩

/-- The watched reader gives what the reader gives. -/
theorem watchWkb_fst (bytes : Bytes) : (watchWkb bytes).1 =
    match readWkb bytes with
    | .ok geometry => .ok geometry
    | .error text => .error (.message text) := by
  obtain ⟨-, hrun⟩ := follows_geometry (bytes.length + 1) 1 ⟨⟨bytes, 0⟩, [], 0⟩ (start_ok bytes)
    (by simp [Cursor.left])
  unfold watchWkb readWkb
  generalize Watched.geometry (bytes.length + 1) 1 ⟨⟨bytes, 0⟩, [], 0⟩ = run at hrun
  obtain ⟨result, w⟩ := run
  cases hr : Reader.geometry (bytes.length + 1) ⟨bytes, 0⟩ with
  | error e =>
    rw [hr] at hrun
    obtain rfl : result = .error (.message e) := hrun
    simp [Bind.bind, Except.bind]
  | ok p =>
    obtain ⟨geometry, c⟩ := p
    rw [hr] at hrun
    obtain ⟨rfl, rfl, -⟩ : result = .ok geometry ∧ w.cursor = c ∧ True := hrun
    by_cases hpos : w.cursor.pos = bytes.length
    · simp [Bind.bind, Except.bind, hpos, Pure.pure, Except.pure]
    · simp [Bind.bind, Except.bind, hpos, throw, throwThe, MonadExceptOf.throw]

theorem deepest_le_iff (bound : Nat) (bytes : Bytes) :
    (watchWkb bytes).2.deepest ≤ bound ↔ ¬ NestsBeyond bound bytes := by
  have hdeep := geometry_deepest (bytes.length + 1) 1 ⟨⟨bytes, 0⟩, [], 0⟩ (start_ok bytes)
    (by simp [Cursor.left]) (bound + 1)
  rw [watchWkb_snd, ← Nat.not_lt, not_iff_not, Nat.lt_iff_add_one_le, hdeep]
  constructor
  · rintro (h | ⟨levels, hopens, hle⟩)
    · exact absurd h (Nat.not_succ_le_zero bound)
    · exact hopens.le (Nat.succ_pos bound) (by omega)
  · intro h
    exact .inr ⟨bound + 1, h, by omega⟩

/-- Collections of one member inside one another, the last one cut off behind its count. -/
def nestedCollections : Nat → Bytes
  | 0 => []
  | n + 1 => [1, 7, 0, 0, 0] ++ ([1, 0, 0, 0] ++ nestedCollections n)

theorem opens_nestedCollections {depth n : Nat} (h : n < depth) (before : Bytes) :
    Opens depth (.between before (nestedCollections (n + 1))) (n + 1) := by
  induction n generalizing depth before with
  | zero =>
    obtain ⟨depth, rfl⟩ : ∃ k, depth = k + 1 := ⟨depth - 1, by omega⟩
    exact .here
  | succ n ih =>
    obtain ⟨depth, rfl⟩ : ∃ k, depth = k + 1 := ⟨depth - 1, by omega⟩
    let w : Writer := { endianness := .little, dim := .xy }
    have hcode : w.header GEOMETRY_COLLECTION = [1, 7, 0, 0, 0] := by decide
    have hone : w.u32 (UInt32.ofNat 1) = [1, 0, 0, 0] := by decide
    have hroom : 1 * HEADER ≤ (nestedCollections (n + 1)).length := by
      simp only [nestedCollections, List.length_append, HEADER, List.length_cons]
      omega
    have hheader := reads_header w (show POINT ≤ GEOMETRY_COLLECTION ∧ _ by decide) before
      ([1, 0, 0, 0] ++ nestedCollections (n + 1))
    have hcount := reads_count w (by decide) hroom (before ++ [1, 7, 0, 0, 0]) []
    rw [hcode] at hheader
    rw [hone, List.append_nil] at hcount
    rw [nestedCollections]
    refine .inside hheader ?_ hcount Nat.one_pos rfl (ih (by omega) _)
    exact w.head_base GEOMETRY_COLLECTION

end Xeibe.Geom.Wkb
