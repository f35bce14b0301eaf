import Mathlib.Data.List.Basic

/-!
# Names as PROJ compares them

Two names match when they are equal after lower-casing, dropping spaces,
underscores and some punctuation, and a few rewrites.
-/

namespace Xeibe.Reproject.Equivalent

/-- The bytes of a name. -/
def bytes (name : String) : List UInt8 := name.toUTF8.toList

def isDigit (c : UInt8) : Bool := decide (48 ≤ c) && decide (c ≤ 57)

/-- `to_ascii_lowercase`. -/
def lower (c : UInt8) : UInt8 := if 65 ≤ c ∧ c ≤ 90 then c + 32 else c

/-- Characters a name is compared without. -/
def ignored (c : UInt8) : Bool := (bytes " _-/().&,").contains c

/-- Whether `s` continues with `word`, ignoring ASCII case. -/
def continuesWith (s : List UInt8) (word : String) : Bool :=
  decide ((s.take (bytes word).length).map lower = (bytes word).map lower)

/-- Accented letters PROJ reads as their base letter. -/
def accents : List (String × UInt8) :=
  [("á", 97), ("ä", 97), ("ě", 101), ("è", 101), ("é", 101), ("ë", 101), ("í", 105), ("ô", 111),
    ("ö", 111), ("ç", 99)]

/-- The rest of a name after `previous`, with `out` the form of what came before.  Each
step takes at least one byte, so `fuel` need not be more than there are. -/
def canonicalFrom (bigger : Bool) :
    Nat → Option UInt8 → List UInt8 → List UInt8 → List UInt8
  | 0, _, _, out => out
  | _ + 1, _, [], out => out
  | fuel + 1, previous, s@(byte :: _), out =>
    let go := fun (taken : Nat) (out : List UInt8) =>
      canonicalFrom bigger fuel (s[taken - 1]?) (s.drop taken) out
    let digit := fun i => (s[i]?).any isDigit
    let c := lower byte
    -- " + " between two names, as in the names of compound CRSs.
    if c = 32 ∧ s[1]? = some 43 ∧ s[2]? = some 32 then
      go 3 out
    -- "19dd" as "dd", after a non-digit.
    else if c = 49 ∧ (out.getLast?.any fun l => !isDigit l) ∧ s[1]? = some 57 ∧ digit 2 ∧ digit 3 then
      go 2 out
    else
      let afterSeparator := bigger && previous.any ignored
      let afterDigit := bigger && previous.any isDigit
      match (if afterSeparator then ["zone", "height"].find? (continuesWith s) else none) with
      | some word => go (bytes word).length out
      | none =>
        match (if afterSeparator || afterDigit then ["north", "south"].find? (continuesWith s)
            else none) with
        | some word => go (bytes word).length (out ++ [c])
        | none =>
          match (if 127 < c then accents.find? fun a => (bytes a.1).isPrefixOf s else none) with
          | some (utf8, ascii) => go (bytes utf8).length (out ++ [ascii])
          | none =>
            if continuesWith s "_IntlFeet" ∧ s.length = (bytes "_IntlFeet").length then
              out ++ bytes "feet"
            else
              go 1 (if ignored c then out else out ++ [c])

/-- PROJ's canonical form of a name.  With `bigger`, "zone" and "height" after a separator
are dropped and "north" and "south" after a separator or a digit shortened. -/
def canonical (name : String) (bigger : Bool) : String :=
  let s := bytes name
  (String.fromUTF8? ⟨(canonicalFrom bigger s.length none s []).toArray⟩).getD ""

/-- PROJ's `isEquivalentName`, with bigger differences allowed. -/
def equivalentNames (a b : String) : Bool := a == b || canonical a true == canonical b true

theorem equivalentNames_comm (a b : String) : equivalentNames a b = equivalentNames b a := by
  unfold equivalentNames
  rw [Bool.beq_comm, Bool.beq_comm (a := canonical a true)]

end Xeibe.Reproject.Equivalent
