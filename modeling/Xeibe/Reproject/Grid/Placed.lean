import Xeibe.Reproject.Grid.Hierarchy

/-!
# Every grid in its place

However the images of a file are placed, each that is a grid is in the hierarchy
once, within the grid above it, and every recorded name keeps leading to its grid.
The grid of a point is one that contains it, in grids that all do, and none of its
subgrids contains it.
-/

namespace Xeibe.Reproject.Grid

open Xeibe.Geom (F64)
open Xeibe.Lib Xeibe.Lib.Forest

variable {P S : Type} (images : List Image) (o : Opener S P)

/-- One extent within another. -/
structure ExtentAndRes.Within (e outer : ExtentAndRes) : Prop where
  west : outer.west ≤ e.west
  east : e.east ≤ outer.east
  south : outer.south ≤ e.south
  north : e.north ≤ outer.north

theorem ExtentAndRes.within_iff (e outer : ExtentAndRes) :
    outer.contains e = true ↔ e.Within outer := by
  simp only [ExtentAndRes.contains, Bool.and_eq_true, decide_eq_true_eq]
  constructor
  · rintro ⟨⟨⟨hw, he⟩, hs⟩, hn⟩
    exact ⟨hw, he, hs, hn⟩
  · rintro ⟨hw, he, hs, hn⟩
    exact ⟨⟨⟨hw, he⟩, hs⟩, hn⟩

/-- The name of a grid, empty when it has none. -/
def nameOf (node : Node P) : Text := itemOf images node.image "grid_name"

/-! ## One grid more -/

/-- Where a grid is placed, and whether it lies within the grid above. -/
structure Placed (h : Hierarchy P) (node : Node P) (placed : List (Rose (Node P)) × List Nat)
    (place : List Nat) : Prop where
  isPlace : IsPlace h.top place
  top : placed.1 = pushAt node place h.top
  path : placed.2 = place ++ [width h.top place]
  within : ∀ t, treeAt h.top place = some t → (extentOf images node).Within (extentOf images t.label)

variable {images o} {h : Hierarchy P} {node : Node P}

theorem placed_at_top : Placed images h node (h.top ++ [.leaf node], [h.top.length]) [] :=
  ⟨trivial, rfl, rfl, nofun⟩

theorem placeByName_spec {gridName parentName : Text} {placed : List (Rose (Node P)) × List Nat}
    (hplaced : placeByName images h node gridName parentName = some placed) :
    ∃ place, Placed images h node placed place := by
  unfold placeByName at hplaced
  split at hplaced
  · obtain ⟨parent, -, hplaced⟩ := Option.bind_eq_some_iff.1 hplaced
    obtain ⟨t, ht, hplaced⟩ := Option.bind_eq_some_iff.1 hplaced
    split at hplaced
    · rename_i hwithin
      cases hplaced
      obtain ⟨hplace, hwidth⟩ := place_of_treeAt ht
      refine ⟨parent, hplace, rfl, by rw [hwidth], ?_⟩
      intro u hu
      cases ht.symm.trans hu
      exact (ExtentAndRes.within_iff ..).1 hwithin
    · cases hplaced
  · split at hplaced
    · cases hplaced
      exact ⟨[], placed_at_top⟩
    · cases hplaced

theorem placeByExtent_spec {typeOf : Node P → Text} {placed : List (Rose (Node P)) × List Nat}
    (hplaced : placeByExtent images typeOf node h.top = some placed) :
    ∃ place, Placed images h node placed place := by
  unfold placeByExtent at hplaced
  obtain ⟨i, hi, hplaced⟩ := Option.bind_eq_some_iff.1 hplaced
  obtain ⟨t, ht, hplaced⟩ := Option.bind_eq_some_iff.1 hplaced
  obtain ⟨place, hplace, hmade, hfits⟩ :=
    insertTree_spec (fun n => (extentOf images n).contains (extentOf images node)) node t
  simp only [insertGrid, hmade] at hplaced
  cases hplaced
  refine ⟨i :: place, ⟨t, ht, hplace⟩, set_pushAt ht place, by simp [width, ht], ?_⟩
  intro u hu
  rw [← ExtentAndRes.within_iff]
  cases place with
  | nil =>
    cases ht.symm.trans hu
    obtain ⟨_, hfound, -⟩ := List.findIdx?_eq_some_iff_getElem.1 hi
    rw [(List.getElem?_eq_some_iff.1 ht).2] at hfound
    exact (Bool.and_eq_true_iff.1 hfound).2
  | cons j place =>
    rw [treeAt_cons_of_getElem? ht (List.cons_ne_nil j place)] at hu
    exact hfits u hu

/-- A grid more in the hierarchy: below one that it lies within, or at the top, and
its name recorded. -/
theorem place_spec (images : List Image) (o : Opener S P) (h : Hierarchy P) (node : Node P) : ∃ place,
    IsPlace h.top place ∧ (o.place images h node).top = pushAt node place h.top ∧
      (∀ t, treeAt h.top place = some t →
        (extentOf images node).Within (extentOf images t.label)) ∧
      (o.place images h node).names =
        if (nameOf images node).isEmpty then h.names
        else Keyed.put (nameOf images node) (place ++ [width h.top place]) h.names := by
  have hsome : ∃ placed place, Placed images h node placed place ∧ o.place images h node =
      ⟨placed.1, if (nameOf images node).isEmpty then h.names
        else Keyed.put (nameOf images node) placed.2 h.names⟩ := by
    unfold Opener.place insertIntoHierarchy
    split
    rename_i top path hmatch
    split at hmatch
    · rename_i hname
      obtain ⟨place, hplaced⟩ := placeByName_spec hname
      exact ⟨_, place, hplaced, by rw [hmatch]; rfl⟩
    · cases hextent : placeByExtent images (o.typeOf images) node h.top with
      | none =>
        rw [hextent, Option.getD_none] at hmatch
        exact ⟨_, [], placed_at_top, by rw [hmatch]; rfl⟩
      | some placed =>
        rw [hextent, Option.getD_some] at hmatch
        obtain ⟨place, hplaced⟩ := placeByExtent_spec hextent
        exact ⟨_, place, hplaced, by rw [hmatch]; rfl⟩
  obtain ⟨placed, place, hplaced, hmade⟩ := hsome
  rw [hmade]
  refine ⟨place, hplaced.isPlace, hplaced.top, hplaced.within, ?_⟩
  rw [hplaced.path]

/-! ## The grids of a file -/

variable (images o)

/-- The images that are grids, from `ifd` on. -/
def Opener.acceptedFrom :
    Nat → S → Option (Node P) → List Image → Except String (List (Node P))
  | _, _, _, [] => .ok []
  | ifd, s, first, image :: rest => do
    let (s, info) ← o.one images ifd image s first
    match info with
    | none => acceptedFrom (ifd + 1) s first rest
    | some info =>
      let nodes ← acceptedFrom (ifd + 1) s (first.or (some ⟨ifd, info⟩)) rest
      .ok (⟨ifd, info⟩ :: nodes)

def Opener.accepted : Except String (List (Node P)) :=
  o.acceptedFrom images 0 o.start none images

/-- The node that was last called by a name. -/
def lastNamed (name : Text) (nodes : List (Node P)) : Option (Node P) :=
  (nodes.filter fun node => nameOf images node = name).getLast?

/-- The grids in their hierarchy. -/
structure Hierarchy.Sound (h : Hierarchy P) (nodes : List (Node P)) : Prop where
  once : (labels h.top).Perm nodes
  nested : Nested (fun above below => (extentOf images below).Within (extentOf images above)) h.top
  unnamed : h.names.lookup [] = none
  named : ∀ name path, h.names.lookup name = some path →
    ∃ t, treeAt h.top path = some t ∧ lastNamed images name nodes = some t.label

variable {images o}

/-- Opening a file places the accepted images one after the other. -/
theorem openFrom_eq (o : Opener S P) (ifd : Nat) (s : S) (h : Hierarchy P) (rest : List Image) :
    o.openFrom images ifd s h rest =
      (o.acceptedFrom images ifd s (h.top.head?.map Rose.label) rest).map
        (List.foldl (o.place images) h) := by
  induction rest generalizing ifd s h with
  | nil => rfl
  | cons image rest ih =>
    rw [Opener.openFrom, Opener.acceptedFrom]
    cases o.one images ifd image s (h.top.head?.map Rose.label) with
    | error e => rfl
    | ok read =>
      obtain ⟨s, info⟩ := read
      cases info with
      | none => exact ih (ifd + 1) s h
      | some info =>
        obtain ⟨place, hplace, htop, -⟩ := place_spec images o h ⟨ifd, info⟩
        have hfirst : (o.place images h ⟨ifd, info⟩).top.head?.map Rose.label =
            (h.top.head?.map Rose.label).or (some ⟨ifd, info⟩) := by
          rw [htop, head?_pushAt hplace]
        show o.openFrom images (ifd + 1) s (o.place images h ⟨ifd, info⟩) rest =
          ((o.acceptedFrom images (ifd + 1) s
            ((h.top.head?.map Rose.label).or (some ⟨ifd, info⟩)) rest).bind
              fun nodes => .ok (⟨ifd, info⟩ :: nodes)).map (List.foldl (o.place images) h)
        rw [ih, hfirst]
        cases o.acceptedFrom images (ifd + 1) s
          ((h.top.head?.map Rose.label).or (some ⟨ifd, info⟩)) rest <;> rfl

/-- The grids are images of the file, in its order. -/
theorem acceptedFrom_increasing {ifd : Nat} {s : S} {first : Option (Node P)} {rest : List Image}
    {nodes : List (Node P)} (h : o.acceptedFrom images ifd s first rest = .ok nodes) :
    (nodes.map (·.image)).Pairwise (· < ·) ∧
      ∀ node ∈ nodes, ifd ≤ node.image ∧ node.image < ifd + rest.length := by
  induction rest generalizing ifd s first nodes with
  | nil =>
    cases h
    simp
  | cons image rest ih =>
    rw [Opener.acceptedFrom] at h
    obtain ⟨⟨s, info⟩, -, h⟩ := bind_eq_ok.1 h
    cases info with
    | none =>
      obtain ⟨hordered, hbounds⟩ := ih h
      refine ⟨hordered, fun node hnode => ?_⟩
      have hbound := hbounds node hnode
      rw [List.length_cons]
      omega
    | some info =>
      obtain ⟨others, hothers, h⟩ := bind_eq_ok.1 h
      cases h
      obtain ⟨hordered, hbounds⟩ := ih hothers
      constructor
      · rw [List.map_cons, List.pairwise_cons]
        refine ⟨fun i hi => ?_, hordered⟩
        obtain ⟨node, hnode, rfl⟩ := List.mem_map.1 hi
        exact (hbounds node hnode).1
      · intro node hnode
        rw [List.length_cons]
        rcases List.mem_cons.1 hnode with rfl | hnode
        · show ifd ≤ ifd ∧ ifd < ifd + (rest.length + 1)
          omega
        · have hbound := hbounds node hnode
          omega

theorem lastNamed_append (name : Text) (nodes : List (Node P)) (node : Node P) :
    lastNamed images name (nodes ++ [node]) =
      if nameOf images node = name then some node else lastNamed images name nodes := by
  rw [lastNamed, List.filter_append, List.filter_singleton]
  by_cases hname : nameOf images node = name
  · simp [hname]
  · simp [hname, lastNamed]

theorem treeAt_place {path : List Nat} {t : Rose (Node P)} (o : Opener S P) (node : Node P)
    (ht : treeAt h.top path = some t) :
    ∃ t', treeAt (o.place images h node).top path = some t' ∧ t'.label = t.label := by
  obtain ⟨place, -, htop, -⟩ := place_spec images o h node
  rw [htop]
  exact exists_treeAt_pushAt place ht

theorem treeAt_placed {path : List Nat} {t : Rose (Node P)} (o : Opener S P)
    (nodes : List (Node P)) (ht : treeAt h.top path = some t) :
    ∃ t', treeAt (nodes.foldl (o.place images) h).top path = some t' ∧ t'.label = t.label := by
  induction nodes generalizing h t with
  | nil => exact ⟨t, ht, rfl⟩
  | cons node nodes ih =>
    obtain ⟨u, hu, hlabel⟩ := treeAt_place o node ht
    obtain ⟨t', ht', hlabel'⟩ := ih hu
    exact ⟨t', ht', hlabel'.trans hlabel⟩

theorem Hierarchy.Sound.place {nodes : List (Node P)} (hs : h.Sound images nodes)
    (o : Opener S P) (node : Node P) : (o.place images h node).Sound images (nodes ++ [node]) := by
  obtain ⟨place, hplace, htop, hwithin, hnames⟩ := place_spec images o h node
  have hlookup : ∀ name, (o.place images h node).names.lookup name =
      if nameOf images node ≠ [] ∧ name = nameOf images node then
        some (place ++ [width h.top place])
      else h.names.lookup name := by
    intro name
    rw [hnames]
    by_cases hempty : nameOf images node = []
    · simp [hempty]
    · rw [if_neg (by simpa using hempty), Keyed.lookup_put]
      simp [hempty]
  refine ⟨?_, ?_, ?_, fun name path hpath => ?_⟩
  · rw [htop]
    have hcons := (pushAt_perm hplace).trans (hs.once.cons node)
    exact hcons.trans (List.perm_append_singleton node nodes).symm
  · rw [htop]
    exact hs.nested.pushAt hwithin
  · rw [hlookup, if_neg fun h => h.1 h.2.symm]
    exact hs.unnamed
  · -- a name is recorded for this grid, or still for the one that had it
    rw [lastNamed_append]
    rw [hlookup] at hpath
    split at hpath
    · rename_i hname
      rw [if_pos hname.2.symm, ← Option.some.inj hpath, htop]
      exact ⟨_, treeAt_pushed hplace, rfl⟩
    · rename_i hname
      have hne : nameOf images node ≠ name := by
        rintro rfl
        refine hname ⟨fun hempty => ?_, rfl⟩
        rw [hempty, hs.unnamed] at hpath
        cases hpath
      rw [if_neg hne]
      obtain ⟨t, ht, hlast⟩ := hs.named name path hpath
      obtain ⟨t', ht', hlabel⟩ := treeAt_place o node ht
      exact ⟨t', ht', by rw [hlast, hlabel]⟩

theorem Hierarchy.Sound.placed {nodes : List (Node P)} (hs : h.Sound images nodes)
    (o : Opener S P) (more : List (Node P)) :
    (more.foldl (o.place images) h).Sound images (nodes ++ more) := by
  induction more generalizing h nodes with
  | nil => simpa using hs
  | cons node more ih => simpa using ih (hs.place o node)

theorem Hierarchy.sound_empty : (Hierarchy.empty : Hierarchy P).Sound images [] where
  once := .refl _
  nested := by
    intro path t ht
    cases path with
    | nil => cases ht
    | cons i path => cases lt_of_treeAt ht
  unnamed := rfl
  named := nofun

theorem openAll_eq (o : Opener S P) :
    o.openAll images = (o.accepted images).map (List.foldl (o.place images) .empty) :=
  openFrom_eq o 0 o.start .empty images

/-! ## The grid of a point -/

/-- The path to a grid, through grids that all contain the point, to one none of whose
subgrids does. -/
structure Found (images : List Image) (tolerant : Bool) (x y : F64) (top : List (Rose (Node P)))
    (found : Rose (Node P)) (path : List Nat) : Prop where
  leads : treeAt top path = some found
  covered : ∀ front above, front <+: path → treeAt top front = some above →
    covers images tolerant x y above.label = true
  deepest : ∀ child ∈ found.children, covers images tolerant x y child.label = false

theorem lookAt_found {looked : Node P → Bool} {tolerant : Bool} {x y : F64}
    {top : List (Rose (Node P))} {found : Rose (Node P)}
    (hfound : lookAt images looked tolerant x y top = some found) :
    ∃ path, Found images tolerant x y top found path := by
  obtain ⟨grid, hgrid, rfl⟩ := Option.map_eq_some_iff.1 hfound
  have hlooked := List.find?_some hgrid
  rw [Bool.and_eq_true_iff] at hlooked
  obtain ⟨i, hi, hget⟩ := List.mem_iff_getElem.1 (List.mem_of_find?_eq_some hgrid)
  have htop : top[i]? = some grid := by rw [List.getElem?_eq_getElem hi, hget]
  obtain ⟨⟨path, hpath, hcovered⟩, hdeepest⟩ :=
    descend_spec (covers images tolerant x y) grid
  refine ⟨i :: path, ?_, ?_, hdeepest⟩
  · rcases hpath with ⟨rfl, heq⟩ | hpath
    · rw [treeAt_single, htop, gridAt, heq]
    · rw [treeAt_cons_of_getElem? htop fun hnil => by rw [hnil] at hpath; cases hpath]
      exact hpath
  · intro front above hfront habove
    cases front with
    | nil => cases habove
    | cons j front =>
      obtain ⟨rfl, hrest⟩ := List.cons_prefix_cons.1 hfront
      cases front with
      | nil =>
        cases htop.symm.trans habove
        exact hlooked.2
      | cons k front =>
        rw [treeAt_cons_of_getElem? htop (List.cons_ne_nil k front)] at habove
        exact hcovered _ above hrest habove

theorem lookAt_eq_none {looked : Node P → Bool} {tolerant : Bool} {x y : F64}
    {top : List (Rose (Node P))} (hnone : lookAt images looked tolerant x y top = none) :
    ∀ grid ∈ top, looked grid.label = true → covers images tolerant x y grid.label = false := by
  intro grid hgrid hlooked
  have hfind := List.find?_eq_none.1 (Option.map_eq_none_iff.1 hnone) grid hgrid
  simpa [hlooked] using hfind

/-! ## The grids that samples are read from -/

/-- An opener that doesn't ask for the first grid accepts what `nodesFrom` does. -/
theorem acceptedFrom_eq_nodesFrom {one : Nat → Image → P → Except String (P × Bool)}
    (o : Opener P P)
    (ho : ∀ ifd image s first, o.one images ifd image s first =
      (one ifd image s).map fun read => (read.1, if read.2 then some read.1 else none))
    (ifd : Nat) (s : P) (first : Option (Node P)) (rest : List Image) :
    o.acceptedFrom images ifd s first rest = nodesFrom one ifd s rest := by
  induction rest generalizing ifd s first with
  | nil => rfl
  | cons image rest ih =>
    rw [Opener.acceptedFrom, nodesFrom, ho]
    cases one ifd image s with
    | error e => rfl
    | ok read =>
      obtain ⟨info, isGrid⟩ := read
      cases isGrid with
      | false =>
        show o.acceptedFrom images (ifd + 1) info first rest =
          (nodesFrom one (ifd + 1) info rest).bind fun nodes => .ok nodes
        rw [ih]
        cases nodesFrom one (ifd + 1) info rest <;> rfl
      | true =>
        show (o.acceptedFrom images (ifd + 1) info (first.or (some ⟨ifd, info⟩)) rest).bind _ =
          (nodesFrom one (ifd + 1) info rest).bind _
        rw [ih]
        rfl

theorem horizontal_accepted (images : List Image) :
    horizontalOpener.accepted images = horizontal images := by
  refine acceptedFrom_eq_nodesFrom _ (fun ifd image s first => ?_) 0 _ none images
  show (horizontalImage ifd image s).bind _ = _
  cases horizontalImage ifd image s <;> rfl

theorem vertical_accepted (images : List Image) :
    verticalOpener.accepted images = vertical images := by
  refine acceptedFrom_eq_nodesFrom _ (fun ifd image s first => ?_) 0 _ none images
  show (verticalImage ifd image s).bind _ = _
  cases verticalImage ifd image s <;> rfl

/-! ## The hierarchy -/

/-- Every grid of a file is in its place, and the grid of a point is the deepest one
that a lookup comes to. -/
theorem hierarchy_placed (images : List Image) (o : Opener S P) (hopen : o.openAll images = .ok h) :
    ∃ nodes, o.accepted images = .ok nodes ∧
      (nodes.map (·.image)).Pairwise (· < ·) ∧ (∀ node ∈ nodes, node.image < images.length) ∧
      h.Sound images nodes ∧
      (∀ front back, nodes = front ++ back → ∀ path t,
        treeAt (front.foldl (o.place images) .empty).top path = some t →
        ∃ t', treeAt h.top path = some t' ∧ t'.label = t.label) ∧
      ∀ looked tolerant x y,
        (∀ found, lookAt images looked tolerant x y h.top = some found →
          ∃ path, Found images tolerant x y h.top found path) ∧
        (lookAt images looked tolerant x y h.top = none →
          ∀ grid ∈ h.top, looked grid.label = true →
            covers images tolerant x y grid.label = false) := by
  rw [openAll_eq] at hopen
  cases haccepted : o.accepted images with
  | error e =>
    rw [haccepted] at hopen
    cases hopen
  | ok nodes =>
    rw [haccepted] at hopen
    cases hopen
    obtain ⟨hincreasing, hbounds⟩ := acceptedFrom_increasing haccepted
    refine ⟨nodes, rfl, hincreasing, fun node hnode => ?_, ?_, ?_, fun looked tolerant x y => ?_⟩
    · simpa using (hbounds node hnode).2
    · simpa using Hierarchy.sound_empty.placed o nodes
    · rintro front back rfl path t ht
      rw [List.foldl_append]
      exact treeAt_placed o back ht
    · exact ⟨fun found => lookAt_found, lookAt_eq_none⟩

/-- An image of the square from one corner to the other. -/
def square (low high : F64) (metadata : List ((Int × Text) × Text)) : Image :=
  { width := 1, height := 1, samples := 1, subfileType := 0, metadata := metadata,
    extent := ⟨false, low, low, high, high, F64.zero, F64.zero, F64.zero, F64.zero⟩,
    bottomUp := false, separatePlanes := false, dataType := .int16, order := .little,
    compression := .none, predictor := 1, blockWidth := 1, blockHeight := 1, blocksPerRow := 1,
    blocks := 0, offsets := [], counts := [], nodata := none, offsetScale := [], decoded := [] }

/-- From 0 to 4 under a name, from 0 to 2 below it by that name, and from 0 to 1 by its
extent. -/
def threeGrids : List Image :=
  [square F64.zero ⟨0x4010000000000000⟩ [((-1, "grid_name".toList), "a".toList)],
   square F64.zero ⟨0x4000000000000000⟩ [((-1, "parent_grid_name".toList), "a".toList)],
   square F64.zero ⟨0x3ff0000000000000⟩ []]

theorem hierarchy_placed_three :
    ∃ h, verticalOpener.openAll threeGrids = .ok h ∧
      labels h.top = [⟨0, ⟨0⟩⟩, ⟨1, ⟨0⟩⟩, ⟨2, ⟨0⟩⟩] ∧
      ∃ nodes, verticalOpener.accepted threeGrids = .ok nodes ∧ h.Sound threeGrids nodes := by
  refine ⟨_, rfl, rfl, ?_⟩
  obtain ⟨nodes, haccepted, -, -, hsound, -⟩ :=
    hierarchy_placed threeGrids verticalOpener rfl
  exact ⟨nodes, haccepted, hsound⟩

end Xeibe.Reproject.Grid
