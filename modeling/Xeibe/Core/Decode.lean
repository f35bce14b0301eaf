import Xeibe.Core.Names
import Xeibe.Lib.Search

/-!
# Decompression and character encodings

`xeibe-core/src/decode.rs` as far as one buffer is read to its end: what the
first bytes say of compression and encoding, and the UTF-8 bytes that come out.
Decoding ahead of a reader has its own model.

The decompressors and `encoding_rs` are not part of the repository.  A label,
decompression and transcoding are parameters; the byte order marks are those of
the encoding standard.
-/

namespace Xeibe

open Lib (indexOf)

inductive Compression where
  | none
  | gzip
  | zstd
  | zip
  deriving DecidableEq, Repr

/-- The encodings that the code tells apart. -/
inductive Encoding where
  | utf8
  | utf16le
  | utf16be
  | other (name : Bytes)
  deriving DecidableEq, Repr

/-- Detect compression from magic bytes. -/
def detectCompression (start : Bytes) : Compression :=
  if [0x1f, 0x8b].isPrefixOf start then .gzip
  else if [0x28, 0xb5, 0x2f, 0xfd].isPrefixOf start then .zstd
  else if (utf8 "PK" ++ [0x03, 0x04]).isPrefixOf start ||
      (utf8 "PK" ++ [0x05, 0x06]).isPrefixOf start then .zip
  else .none

/-- Bytes read to find the XML declaration. -/
def DECLARATION_LEN : Nat := 1024

/-- The byte order mark of UTF-8. -/
def utf8Mark : Bytes := [0xef, 0xbb, 0xbf]

/-- `Encoding::for_bom`. -/
def forBom (start : Bytes) : Option Encoding :=
  if utf8Mark.isPrefixOf start then some .utf8
  else if [0xff, 0xfe].isPrefixOf start then some .utf16le
  else if [0xfe, 0xff].isPrefixOf start then some .utf16be
  else none

/-- `<[u8]>::trim_ascii_start`. -/
def trimAsciiStart (bytes : Bytes) : Bytes := bytes.dropWhile isAsciiWhitespace

/-- `<[u8]>::trim_ascii_end`. -/
def trimAsciiEnd (bytes : Bytes) : Bytes := (bytes.reverse.dropWhile isAsciiWhitespace).reverse

/-- The `encoding` pseudo-attribute of an XML declaration at the very start. -/
def declaredLabel (start : Bytes) : Option Bytes := do
  let rest ← stripPrefix (utf8 "<?xml") start
  let stop ← indexOf (utf8 "?>") rest
  let decl := rest.take stop
  let found ← indexOf (utf8 "encoding") decl
  let rest ← stripPrefix (utf8 "=") (trimAsciiStart (decl.drop (found + 8)))
  match trimAsciiStart rest with
  | [] => none
  | quote :: rest =>
    if quote ≠ 0x22 ∧ quote ≠ 0x27 then none
    else (splitOnce quote rest).map fun (label, _) => trimAscii label

section

variable (forLabel : Bytes → Option Encoding)

/-- `none`: nothing declared.  An error is an unknown label. -/
def sniffEncoding (start : Bytes) : Except Bytes (Option Encoding) :=
  match forBom start with
  | some encoding => .ok (some encoding)
  | none =>
    -- UTF-16 without a mark: `<?` as two-byte units.
    if [0x3c, 0x00, 0x3f, 0x00].isPrefixOf start then .ok (some .utf16le)
    else if [0x00, 0x3c, 0x00, 0x3f].isPrefixOf start then .ok (some .utf16be)
    else
      match declaredLabel start with
      | none => .ok none
      | some label =>
        match forLabel label with
        -- Such a label in what could be read as ASCII is a wrong one.
        | some .utf16le | some .utf16be => .ok (some .utf8)
        | some encoding => .ok (some encoding)
        | none => .error label

/-- UTF-8 where nothing is declared, or a label that is not known. -/
def detectEncoding (start : Bytes) : Encoding :=
  match sniffEncoding forLabel start with
  | .ok (some encoding) => encoding
  | _ => .utf8

end

/-- `flate2`, `zstd` and `encoding_rs`, each on a whole buffer. -/
structure Decoders where
  forLabel : Bytes → Option Encoding
  gunzip : Bytes → Except String Bytes
  unzstd : Bytes → Except String Bytes
  transcode : Encoding → Bytes → Bytes

inductive DecodeError where
  | io (message : String)
  | unsupportedEncoding (label : Bytes)
  deriving DecidableEq, Repr

namespace Decoders

/-- `MultiGzDecoder` or zstd's `Decoder`, or the bytes as they are. -/
def decompressed (decoders : Decoders) (raw : Bytes) : Except DecodeError Bytes :=
  match detectCompression raw with
  | .none => .ok raw
  | .gzip => (decoders.gunzip raw).mapError .io
  | .zstd => (decoders.unzstd raw).mapError .io
  | .zip => .error
    (.io "a zip archive cannot be read as one stream; pass it as an archive input")

/-- `decoded_reader`, read to the end. -/
def decodedReader (decoders : Decoders) (raw : Bytes) : Except DecodeError Bytes := do
  let bytes ← decoders.decompressed raw
  let start := bytes.take DECLARATION_LEN
  let encoding ← (sniffEncoding decoders.forLabel start).mapError .unsupportedEncoding
  if encoding.getD .utf8 = .utf8 then
    if utf8Mark.isPrefixOf start then .ok (bytes.drop utf8Mark.length) else .ok bytes
  else .ok (decoders.transcode (encoding.getD .utf8) bytes)

end Decoders

/-! ## What a first part says -/

theorem isPrefixOf_take {pattern bytes : Bytes} {n : Nat}
    (h : pattern.isPrefixOf (bytes.take n) = true) : pattern.isPrefixOf bytes = true :=
  List.isPrefixOf_iff_prefix.2 ((List.isPrefixOf_iff_prefix.1 h).trans (List.take_prefix n bytes))

theorem isPrefixOf_take_eq (pattern bytes : Bytes) {n : Nat} (h : pattern.length ≤ n) :
    pattern.isPrefixOf (bytes.take n) = pattern.isPrefixOf bytes := by
  rw [Bool.eq_iff_iff, List.isPrefixOf_iff_prefix, List.isPrefixOf_iff_prefix]
  constructor
  · intro hpre
    exact hpre.trans (List.take_prefix n bytes)
  · intro hpre
    rw [List.prefix_take_iff]
    exact ⟨hpre, h⟩

/-- A first part of what is not compressed does not look compressed. -/
theorem detectCompression_take {bytes : Bytes} (h : detectCompression bytes = .none) (n : Nat) :
    detectCompression (bytes.take n) = .none := by
  have hnot : ∀ pattern : Bytes, pattern.isPrefixOf bytes = false →
      pattern.isPrefixOf (bytes.take n) = false := by
    intro pattern hpattern
    rw [Bool.eq_false_iff] at hpattern ⊢
    exact fun htake => hpattern (isPrefixOf_take htake)
  unfold detectCompression at h ⊢
  split at h
  · cases h
  split at h
  · cases h
  split at h
  · cases h
  rename_i hgzip hzstd hzip
  rw [Bool.not_eq_true] at hgzip hzstd hzip
  rw [Bool.or_eq_false_iff] at hzip
  rw [hnot _ hgzip, hnot _ hzstd, hnot _ hzip.1, hnot _ hzip.2]
  rfl

/-- An XML declaration whose end a first part holds is read from it as from the
whole. -/
theorem declaredLabel_take {bytes : Bytes} {n : Nat}
    (h : (utf8 "<?xml").isPrefixOf (bytes.take n) = true →
      utf8 "?>" <:+: (bytes.take n).drop (utf8 "<?xml").length)
    (hn : (utf8 "<?xml").length ≤ n) :
    declaredLabel (bytes.take n) = declaredLabel bytes := by
  have hsame := isPrefixOf_take_eq _ bytes hn
  unfold declaredLabel stripPrefix
  by_cases hxml : (utf8 "<?xml").isPrefixOf bytes = true
  · rw [hsame, if_pos hxml, if_pos hxml]
    have hwhole : bytes.drop (utf8 "<?xml").length =
        (bytes.take n).drop (utf8 "<?xml").length ++ bytes.drop n := by
      rw [← List.drop_append_of_le_length, List.take_append_drop]
      by_contra hshort
      have hlen := (List.isPrefixOf_iff_prefix.1 (hsame.trans hxml)).length_le
      omega
    have hfound := Lib.exists_indexOf (h (hsame.trans hxml))
    obtain ⟨stop, hstop⟩ := hfound
    have hinside := Lib.indexOf_add_length_le hstop
    have hdecl := @List.take_append_of_le_length UInt8
      ((bytes.take n).drop (utf8 "<?xml").length) (bytes.drop n) stop (by omega)
    simp only [bind, Option.bind_some, hwhole, hstop, Lib.indexOf_append_of_some hstop, hdecl]
  · rw [hsame, if_neg hxml, if_neg hxml]

/-- A first part is UTF-8 like the whole, where it holds the end of the XML
declaration. -/
theorem detectEncoding_take {forLabel : Bytes → Option Encoding} {bytes : Bytes} {n : Nat}
    (hutf8 : detectEncoding forLabel bytes = .utf8)
    (h : (utf8 "<?xml").isPrefixOf (bytes.take n) = true →
      utf8 "?>" <:+: (bytes.take n).drop (utf8 "<?xml").length)
    (hn : (utf8 "<?xml").length ≤ n) :
    detectEncoding forLabel (bytes.take n) = .utf8 := by
  have hsame : sniffEncoding forLabel (bytes.take n) = sniffEncoding forLabel bytes := by
    have hlen : (utf8 "<?xml").length = 5 := by decide
    unfold sniffEncoding forBom
    rw [declaredLabel_take h hn]
    simp only [isPrefixOf_take_eq utf8Mark bytes (n := n)
        (by rw [hlen] at hn; show 3 ≤ n; omega),
      isPrefixOf_take_eq [0xff, 0xfe] bytes (n := n)
        (by rw [hlen] at hn; show 2 ≤ n; omega),
      isPrefixOf_take_eq [0xfe, 0xff] bytes (n := n)
        (by rw [hlen] at hn; show 2 ≤ n; omega),
      isPrefixOf_take_eq [0x3c, 0x00, 0x3f, 0x00] bytes (n := n)
        (by rw [hlen] at hn; show 4 ≤ n; omega),
      isPrefixOf_take_eq [0x00, 0x3c, 0x00, 0x3f] bytes (n := n)
        (by rw [hlen] at hn; show 4 ≤ n; omega)]
  unfold detectEncoding at hutf8 ⊢
  rw [hsame]
  exact hutf8

end Xeibe
