import Xeibe.Arrow.Feature

/-!
# Two rows read alike

The reader uses a row by its operations only.  A relation between two kinds of rows
that every operation keeps is kept by the reading of a feature: both readings end
alike, and an error of the reader is one of the body's.
-/

namespace Xeibe.Arrow

/-- Every operation keeps the relation. -/
structure Related {F G E σ τ : Type} (R : σ → τ → Prop) (a : RowOps F G E σ)
    (b : RowOps F G E τ) : Prop where
  inherited : ∀ {s t}, R s t → a.inherited s = b.inherited t
  boundedBy : ∀ context {s t}, R s t → R (a.boundedBy context s) (b.boundedBy context t)
  count : ∀ anchor {s t}, R s t → R (a.count anchor s) (b.count anchor t)
  put : ∀ column value {s t}, R s t → R (a.put column value s) (b.put column value t)
  fail : ∀ message {s t}, R s t → R (a.fail message s) (b.fail message t)
  failGeometry : ∀ message {s t}, R s t → R (a.failGeometry message s) (b.failGeometry message t)
  warn : ∀ message {s t}, R s t → R (a.warn message s) (b.warn message t)

/-- Both readings end in related rows, or with one error. -/
def Alike {ε A σ τ : Type} (errors : List ε) (R : σ → τ → Prop) :
    Except (ReadError ε A) σ → Except (ReadError ε A) τ → Prop
  | .ok s, .ok t => R s t
  | .error (.core e), .error (.core e') => e = e' ∧ e ∈ errors
  | .error (.other a), .error (.other a') => a = a'
  | _, _ => False

namespace Alike

variable {ε A α β γ δ : Type} {errors : List ε} {R : α → β → Prop} {Q : γ → δ → Prop}
  {x : Except (ReadError ε A) α} {y : Except (ReadError ε A) β}

theorem mono {errors' : List ε} {R' : α → β → Prop} (h : Alike errors R x y)
    (herrors : ∀ e ∈ errors, e ∈ errors') (hR : ∀ {a b}, R a b → R' a b) :
    Alike errors' R' x y := by
  match x, y, h with
  | .ok _, .ok _, h => exact hR h
  | .error (.core _), .error (.core _), ⟨heq, hmem⟩ => exact ⟨heq, herrors _ hmem⟩
  | .error (.other _), .error (.other _), h => exact h

theorem bind {f : α → Except (ReadError ε A) γ} {g : β → Except (ReadError ε A) δ}
    (h : Alike errors R x y) (hf : ∀ {a b}, R a b → Alike errors Q (f a) (g b)) :
    Alike errors Q (x >>= f) (y >>= g) := by
  match x, y, h with
  | .ok _, .ok _, h => exact hf h
  | .error (.core _), .error (.core _), h => exact h
  | .error (.other _), .error (.other _), h => exact h

theorem core {e : ε} (h : e ∈ errors) :
    Alike errors R (.error (.core e) : Except (ReadError ε A) α) (.error (.core e)) :=
  ⟨rfl, h⟩

end Alike

section

variable {F G E P σ τ ε A : Type} {floats : Floats F} {geo : Geometries ε A G E P}
  {plan : FeaturePlan P} {a : RowOps F G E σ} {b : RowOps F G E τ} {R : σ → τ → Prop}

theorem foldl_related {α : Type} {f : σ → α → σ} {g : τ → α → τ} (xs : List α)
    (hstep : ∀ x {s t}, R s t → R (f s x) (g t x)) {s : σ} {t : τ} (h : R s t) :
    R (xs.foldl f s) (xs.foldl g t) := by
  induction xs generalizing s t with
  | nil => exact h
  | cons x xs ih => exact ih (hstep x h)

theorem innerText_error {e : ε} (body : Body ε) (h : body.innerText = .error e) :
    e ∈ body.errors := by
  induction body with
  | done => cases h
  | text written s rest ih =>
    cases hrest : rest.innerText with
    | ok text => simp [Body.innerText, hrest, bind, Except.bind] at h
    | error e' =>
      have heq : e' = e := by simpa [Body.innerText, hrest, bind, Except.bind] using h
      exact ih (heq ▸ hrest)
  | unreadable written error rest ih =>
    have heq : error = e := by simpa [Body.innerText] using h
    simp [Body.errors, heq]
  | element tag written content close rest ihContent ihRest =>
    cases tag with
    | error error =>
      have heq : error = e := by simpa [Body.innerText] using h
      simp [Body.errors, heq]
    | ok tag =>
      simp only [Body.errors, List.mem_append]
      cases hcontent : content.innerText with
      | error e' =>
        have heq : e' = e := by simpa [Body.innerText, hcontent, bind, Except.bind] using h
        exact .inl (ihContent (heq ▸ hcontent))
      | ok s =>
        cases hrest : rest.innerText with
        | ok text => simp [Body.innerText, hcontent, hrest, bind, Except.bind] at h
        | error e' =>
          have heq : e' = e := by
            simpa [Body.innerText, hcontent, hrest, bind, Except.bind] using h
          exact .inr (ihRest (heq ▸ hrest))

theorem subtreePairs_error {e : ε} (body : Body ε) {path : Bytes}
    (h : subtreePairs path body = .error e) : e ∈ body.errors := by
  induction body generalizing path with
  | done => cases h
  | text written s rest ih =>
    cases hrest : subtreePairs path rest with
    | ok pairs => simp [subtreePairs, hrest, bind, Except.bind] at h
    | error e' =>
      have heq : e' = e := by simpa [subtreePairs, hrest, bind, Except.bind] using h
      exact ih (heq ▸ hrest)
  | unreadable written error rest ih =>
    have heq : error = e := by simpa [subtreePairs] using h
    simp [Body.errors, heq]
  | element tag written content close rest ihContent ihRest =>
    cases tag with
    | error error =>
      have heq : error = e := by simpa [subtreePairs] using h
      simp [Body.errors, heq]
    | ok tag =>
      simp only [Body.errors, List.mem_append]
      cases hcontent : subtreePairs (joinPath path tag.name) content with
      | error e' =>
        have heq : e' = e := by simpa [subtreePairs, hcontent, bind, Except.bind] using h
        exact .inl (ihContent (heq ▸ hcontent))
      | ok below =>
        cases hrest : subtreePairs path rest with
        | ok pairs => simp [subtreePairs, hcontent, hrest, bind, Except.bind] at h
        | error e' =>
          have heq : e' = e := by
            simpa [subtreePairs, hcontent, hrest, bind, Except.bind] using h
          exact .inr (ihRest (heq ▸ hrest))

theorem subtreeMap_error {e : ε} {body : Body ε} (h : subtreeMap body = .error e) :
    e ∈ body.errors := by
  cases hpairs : subtreePairs [] body with
  | ok pairs => simp [subtreeMap, hpairs, bind, Except.bind] at h
  | error e' =>
    have heq : e' = e := by simpa [subtreeMap, hpairs, bind, Except.bind] using h
    exact subtreePairs_error body (heq ▸ hpairs)

namespace Related

theorem putText (hR : Related R a b) (target : Target) (text : Bytes) {s : σ} {t : τ}
    (h : R s t) : R (putText floats plan a target text s) (putText floats plan b target text t) := by
  simp only [Arrow.putText]
  split
  · split
    · split
      · exact h
      · split
        · exact hR.put _ _ h
        · exact hR.fail _ h
    · exact h
  · exact h

theorem textInto (hR : Related R a b) (target : Target) (text : Bytes) (raw : Option Bytes)
    {s : σ} {t : τ} (h : R s t) :
    R (textInto floats plan a target text raw s) (textInto floats plan b target text raw t) := by
  cases raw with
  | none =>
    simp only [Arrow.textInto]
    split
    · split
      · split
        · exact h
        · exact hR.putText _ _ h
      · exact h
    · exact h
  | some raw =>
    simp only [Arrow.textInto]
    split
    · split
      · rename_i dataType _
        generalize (if isString dataType then Schema.trim raw else Schema.trim text) = value
        split
        · exact h
        · exact hR.putText _ _ h
      · exact h
    · exact h

/-- Both find the element `xsi:nil`, or both don't. -/
theorem start (hR : Related R a b) (floats : Floats F) (plan : FeaturePlan P)
    (nodes : List RouteNode) (attrs : List (QName × Bytes)) {s : σ} {t : τ} (h : R s t) :
    (start floats plan a nodes attrs s).1 = (start floats plan b nodes attrs t).1 ∧
      R (start floats plan a nodes attrs s).2 (start floats plan b nodes attrs t).2 := by
  simp only [Arrow.start]
  refine foldl_related (R := fun (p : Bool × σ) (q : Bool × τ) => p.1 = q.1 ∧ R p.2 q.2) attrs
    ?_ ⟨rfl, ?_⟩
  · rintro ⟨name, value⟩ ⟨nil, s⟩ ⟨nil', t⟩ ⟨rfl, h⟩
    by_cases hxsi : name.ns = some ns.XSI
    · simp [hxsi, h]
    · simp only [hxsi, if_false]
      exact ⟨trivial, foldl_related _ (fun target _ _ h => hR.putText target _ h) h⟩
  · refine foldl_related nodes (fun node s t h => ?_) h
    split
    · exact hR.count _ h
    · exact h

theorem geometry (hR : Related R a b) (nodes : List RouteNode) (tag : StartTag) (body : Body ε)
    {s : σ} {t : τ} (h : R s t) :
    Alike body.errors (fun (p : Option G × σ) (q : Option G × τ) => p.1 = q.1 ∧ R p.2 q.2)
      (geometry geo plan a nodes tag body s) (geometry geo plan b nodes tag body t) := by
  simp only [Arrow.geometry, hR.inherited h]
  split
  · split
    · rename_i parsed _
      have hwarn := foldl_related parsed.warnings (fun warning _ _ h => hR.warn warning h) h
      split
      · exact ⟨rfl, hR.failGeometry _ hwarn⟩
      · split
        · split
          · exact rfl
          · exact ⟨rfl, hR.failGeometry _ hwarn⟩
          · exact ⟨rfl, hwarn⟩
        · exact ⟨rfl, hwarn⟩
    · exact .core ‹_›
    · exact ⟨rfl, hR.failGeometry _ h⟩
  · exact ⟨rfl, h⟩

theorem putGeometry (hR : Related R a b) (nodes : List RouteNode) (g : G) {s : σ} {t : τ}
    (h : R s t) : R (putGeometry geo plan a nodes g s) (putGeometry geo plan b nodes g t) := by
  refine foldl_related (geometryTargets nodes) (fun target s t h => ?_) h
  split
  · split
    · split
      · exact hR.put _ _ h
      · exact hR.failGeometry _ h
    · exact h
  · exact h

theorem boundingBox (hR : Related R a b) (target : Target) (depth : Nat) (body : Body ε)
    {s : σ} {t : τ} (h : R s t) :
    Alike body.errors R (boundingBox geo plan a target depth body s)
      (boundingBox geo plan b target depth body t) := by
  simp only [Arrow.boundingBox, hR.inherited h]
  split
  · rename_i envelope inherited _
    have hbounded : R (if depth = 0 then a.boundedBy inherited s else s)
        (if depth = 0 then b.boundedBy inherited t else t) := by
      split
      · exact hR.boundedBy _ h
      · exact h
    split
    · exact hR.put _ _ hbounded
    · split
      · exact rfl
      · exact hR.failGeometry _ hbounded
      · exact hR.put _ _ hbounded
  · exact h
  · exact .core ‹_›
  · exact hR.failGeometry _ h

theorem boundedBySrs (hR : Related R a b) (body : Body ε) {s : σ} {t : τ} (h : R s t) :
    Alike body.errors R (boundedBySrs geo a body s) (boundedBySrs geo b body t) := by
  simp only [Arrow.boundedBySrs, hR.inherited h]
  split
  · exact hR.boundedBy _ h
  · exact .core ‹_›
  · exact h

theorem whole (hR : Related R a b) (target : Target) (depth : Nat) (body : Body ε)
    {s : σ} {t : τ} (h : R s t) :
    Alike body.errors R (whole floats geo plan a target depth body s)
      (whole floats geo plan b target depth body t) := by
  simp only [Arrow.whole]
  split
  · split
    · exact .core (subtreeMap_error ‹_›)
    · exact h
    · exact hR.put _ _ h
  · exact hR.boundingBox _ _ _ h
  · split
    · exact .core (innerText_error body ‹_›)
    · exact hR.textInto _ _ _ h

/-- What two loops have gathered. -/
structure Gathered (R : σ → τ → Prop) (g : Gathered G σ) (h : Arrow.Gathered G τ) : Prop where
  row : R g.row h.row
  text : g.text = h.text
  hadChildren : g.hadChildren = h.hadChildren
  parts : g.parts = h.parts
  geometries : g.geometries = h.geometries

theorem atEnd (hR : Related R a b) (nodes : List RouteNode) (opened : Opened) (raw : Bytes)
    {g : Arrow.Gathered G σ} {h : Arrow.Gathered G τ} (hg : Gathered R g h) :
    R (atEnd floats geo plan a nodes opened raw g) (atEnd floats geo plan b nodes opened raw h) := by
  simp only [Arrow.atEnd, hg.text, hg.hadChildren, hg.parts]
  refine foldl_related _ (fun target _ _ h => hR.textInto target _ _ h) ?_
  split
  · exact hR.putGeometry nodes _ hg.row
  · exact hg.row

/-- What `content` keeps, if the loop over the events does. -/
theorem content (hR : Related R a b) (nodes : List RouteNode) (opened : Opened) (body : Body ε)
    (raw : Bytes) {read : Arrow.Gathered G σ → Except (ReadError ε A) (Arrow.Gathered G σ)}
    {read' : Arrow.Gathered G τ → Except (ReadError ε A) (Arrow.Gathered G τ)}
    (hread : ∀ {g h}, Gathered R g h → Alike body.errors (Gathered R) (read g) (read' h))
    {s : σ} {t : τ} (h : R s t) :
    Alike body.errors R (content floats geo plan a nodes opened body raw read s)
      (content floats geo plan b nodes opened body raw read' t) := by
  simp only [Arrow.content]
  split
  · exact h
  · split
    · exact hR.whole _ _ _ h
    · split
      · exact h
      · refine Alike.bind (hread ⟨h, rfl, rfl, rfl, rfl⟩) fun hg => ?_
        exact hR.atEnd nodes opened raw hg

theorem part (hR : Related R a b) (nodes : List RouteNode) (opened : Opened) (tag : StartTag)
    (body : Body ε) {g : Arrow.Gathered G σ} {h : Arrow.Gathered G τ} (hg : Gathered R g h) :
    Alike body.errors (Gathered R) (part geo plan a nodes opened tag body g)
      (part geo plan b nodes opened tag body h) := by
  simp only [Arrow.part, hg.geometries]
  split
  · exact ⟨hR.fail _ hg.row, hg.text, hg.hadChildren, hg.parts, rfl⟩
  · refine Alike.bind (hR.geometry nodes tag body hg.row) fun {p q} hpart => ?_
    exact ⟨hpart.2, hg.text, hg.hadChildren, by rw [hg.parts, hpart.1], rfl⟩

theorem loop (hR : Related R a b) (nodes : List RouteNode) (opened : Opened) (body : Body ε)
    {g : Arrow.Gathered G σ} {h : Arrow.Gathered G τ} (hg : Gathered R g h) :
    Alike body.errors (Gathered R) (loop floats geo plan a nodes opened body g)
      (loop floats geo plan b nodes opened body h) := by
  induction body generalizing nodes opened g h with
  | done => exact hg
  | text written s rest ih =>
    simp only [Arrow.loop, hg.text]
    refine ih nodes opened ?_
    split
    · exact ⟨hg.row, rfl, hg.hadChildren, hg.parts, hg.geometries⟩
    · exact hg
  | unreadable written error rest ih => exact .core (List.mem_cons_self ..)
  | element tag written inner close rest ihInner ihRest =>
    cases tag with
    | error error => exact .core (List.mem_cons_self ..)
    | ok tag =>
      have hinner : ∀ e ∈ inner.errors, e ∈ inner.errors ++ rest.errors :=
        fun e he => List.mem_append_left _ he
      have hrest : ∀ e ∈ rest.errors, e ∈ inner.errors ++ rest.errors :=
        fun e he => List.mem_append_right _ he
      have hchild : Gathered R { g with hadChildren := true } { h with hadChildren := true } :=
        ⟨hg.row, hg.text, rfl, hg.parts, hg.geometries⟩
      simp only [Arrow.loop, Body.errors]
      refine Alike.bind (R := Gathered R) ?_ fun hg => (ihRest nodes opened hg).mono hrest id
      split
      · exact (hR.part nodes opened tag inner hchild).mono hinner id
      · split
        · split
          · refine Alike.bind ((hR.boundedBySrs inner hg.row).mono hinner id) fun hrow => ?_
            exact ⟨hrow, hg.text, rfl, hg.parts, hg.geometries⟩
          · exact hchild
        · rename_i matched _
          have hstart := hR.start floats plan
            (nodes.flatMap (·.matchingChildren tag.name)) tag.attrs hg.row
          rw [hstart.1]
          refine Alike.bind ((hR.content _ _ inner _ (ihInner _ _) hstart.2).mono hinner id)
            fun hrow => ?_
          exact ⟨hrow, hg.text, rfl, hg.parts, hg.geometries⟩

theorem element (hR : Related R a b) (floats : Floats F) (geo : Geometries ε A G E P)
    (plan : FeaturePlan P) (tag : StartTag) (body : Body ε) (close : Bytes) {s : σ} {t : τ}
    (h : R s t) :
    Alike body.errors R (element floats geo plan a tag body close s)
      (element floats geo plan b tag body close t) := by
  have hstart := hR.start floats plan [plan.routes.root] tag.attrs h
  simp only [Arrow.element]
  rw [hstart.1]
  exact hR.content _ _ body _ (fun hg => hR.loop _ _ body hg) hstart.2

end Related

end

end Xeibe.Arrow
