import Mathlib.Data.List.Basic

/-!
# Byte strings, qualified names and namespace contexts

A Rust `&[u8]` is a list of bytes here, and a Rust `str` is the list of its
UTF-8 bytes: the splitter slices both by byte offsets, so nothing is lost.
`utf8` gives the bytes of a literal of the source.

The second half is `qname.rs` and `namespace.rs`: qualified names without
their prefix, and the flattened table of namespace declarations a chunk
carries.
-/

namespace Xeibe

/-- A byte slice, or the UTF-8 bytes of a string. -/
abbrev Bytes := List UInt8

/-- The bytes of a string literal of the source. -/
def utf8 (s : String) : Bytes := s.toList.flatMap String.utf8EncodeChar

/-- `std::str::from_utf8(bytes).is_ok()`. -/
def isUtf8 (bytes : Bytes) : Bool := (ByteArray.mk bytes.toArray).validateUTF8

/-- `u8::is_ascii_whitespace`: space, tab, line feed, form feed, carriage
return. -/
def isAsciiWhitespace (b : UInt8) : Bool :=
  b == 0x20 || b == 0x09 || b == 0x0a || b == 0x0c || b == 0x0d

/-- `<[u8]>::trim_ascii`. -/
def trimAscii (bytes : Bytes) : Bytes :=
  ((bytes.dropWhile isAsciiWhitespace).reverse.dropWhile isAsciiWhitespace).reverse

/-- `str::split_once` at one ASCII character. -/
def splitOnce (sep : UInt8) : Bytes → Option (Bytes × Bytes)
  | [] => none
  | b :: rest =>
    if b = sep then some ([], rest)
    else (splitOnce sep rest).map fun (before, after) => (b :: before, after)

theorem splitOnce_append {sep : UInt8} {before : Bytes} (h : sep ∉ before) (after : Bytes) :
    splitOnce sep (before ++ sep :: after) = some (before, after) := by
  induction before with
  | nil => simp [splitOnce]
  | cons a before ih =>
    rw [List.mem_cons, not_or] at h
    simp [splitOnce, Ne.symm h.1, ih h.2]

theorem splitOnce_of_not_mem {sep : UInt8} {s : Bytes} (h : sep ∉ s) : splitOnce sep s = none := by
  induction s with
  | nil => rfl
  | cons a s ih =>
    rw [List.mem_cons, not_or] at h
    simp [splitOnce, Ne.symm h.1, ih h.2]

/-- `str::strip_prefix`. -/
def stripPrefix (pre s : Bytes) : Option Bytes :=
  if pre.isPrefixOf s then some (s.drop pre.length) else none

/-- `bytes[i..j]`. -/
def slice (bytes : Bytes) (i j : Nat) : Bytes := (bytes.drop i).take (j - i)

theorem slice_drop (bytes : Bytes) (k i j : Nat) :
    slice (bytes.drop k) i j = slice bytes (k + i) (k + j) := by
  simp only [slice, List.drop_drop]
  congr 1
  omega

theorem slice_append_left {a : Bytes} {i j : Nat} (hj : j ≤ a.length) (b : Bytes) :
    slice (a ++ b) i j = slice a i j := by
  unfold slice
  rcases Nat.le_total i a.length with hi | hi
  · rw [List.drop_append_of_le_length hi, List.take_append_of_le_length]
    simp only [List.length_drop]
    omega
  · have h : j - i = 0 := by omega
    simp [h]

theorem slice_append_right (a b : Bytes) (i j : Nat) :
    slice (a ++ b) (a.length + i) (a.length + j) = slice b i j := by
  simp only [slice, List.drop_append, List.drop_eq_nil_of_le (Nat.le_add_right a.length i),
    Nat.add_sub_cancel_left, List.nil_append]
  congr 1
  omega

/-! ## Qualified names -/

/-! Namespace URIs the program compares with. -/

namespace ns

def GML : Bytes := utf8 "http://www.opengis.net/gml"
def GML_32 : Bytes := utf8 "http://www.opengis.net/gml/3.2"
def XLINK : Bytes := utf8 "http://www.w3.org/1999/xlink"
def XSI : Bytes := utf8 "http://www.w3.org/2001/XMLSchema-instance"
def WFS : Bytes := utf8 "http://www.opengis.net/wfs"
def WFS_20 : Bytes := utf8 "http://www.opengis.net/wfs/2.0"
def FME : Bytes := utf8 "http://www.safe.com/gml/fme"
def XML : Bytes := utf8 "http://www.w3.org/XML/1998/namespace"

end ns

/-- Namespace URI and local name (`local` in the source). Never the prefix. -/
structure QName where
  ns : Option Bytes
  localName : Bytes
  deriving DecidableEq, Repr

namespace QName

/-- In one of the GML namespaces (2/3.1 or 3.2). -/
def isGml (name : QName) : Bool :=
  name.ns == some ns.GML || name.ns == some ns.GML_32

/-- `localName` in one of the GML namespaces. -/
def isGmlNamed (name : QName) (localName : Bytes) : Bool :=
  name.isGml && name.localName == localName

end QName

/-! ## Namespace contexts -/

/-- Namespace declarations in scope at some point of the document:
`(prefix, uri)`, no prefix for the default namespace. Each prefix appears
once. -/
structure NamespaceContext where
  bindings : List (Option Bytes × Bytes)
  deriving DecidableEq, Repr

namespace NamespaceContext

def new : NamespaceContext := ⟨[]⟩

/-- Replace the URI of the first binding of `pre`, if there is one. -/
def replaceFirst (pre : Option Bytes) (uri : Bytes) :
    List (Option Bytes × Bytes) → Option (List (Option Bytes × Bytes))
  | [] => none
  | (p, u) :: rest =>
    if p = pre then some ((p, uri) :: rest)
    else (replaceFirst pre uri rest).map ((p, u) :: ·)

/-- Bind `pre` to `uri`, replacing an earlier binding of the same prefix. -/
def declare (context : NamespaceContext) (pre : Option Bytes) (uri : Bytes) :
    NamespaceContext :=
  match replaceFirst pre uri context.bindings with
  | some bindings => ⟨bindings⟩
  | none => ⟨context.bindings ++ [(pre, uri)]⟩

/-- Some prefix (or the default namespace) is bound to `uri`. -/
def declaresUri (context : NamespaceContext) (uri : Bytes) : Bool :=
  context.bindings.any fun binding => binding.2 == uri

end NamespaceContext

end Xeibe
