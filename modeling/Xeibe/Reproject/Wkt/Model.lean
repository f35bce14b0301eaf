import Xeibe.Core.Names
import Xeibe.Lib.Checked
import Xeibe.Lib.Search
import Xeibe.Reproject.Angles.Model
import Xeibe.Reproject.Number.Model

/-!
# WKT's syntax

`parse.rs`, and the writing of nodes of `write.rs`.  A text is its UTF-8 bytes, and the
parser's place in it the bytes that are left; every byte that it looks at is ASCII, or
one of the two quotes that take three bytes.  The loop over the arguments has turns, and
panics where they do not do.
-/

namespace Xeibe.Reproject.Wkt

open Xeibe.Geom (F64)
open Xeibe.Lib Numerals Rounded

/-- How deep nodes may nest. -/
def MAX_DEPTH : Nat := 64

mutual

/-- One `KEYWORD[…]`. -/
inductive Node where
  /-- The keyword is upper-cased; the offset is that of the keyword in the text. -/
  | mk (keyword : Bytes) (args : List Arg) (offset : Nat)

inductive Arg where
  /-- A quoted string. -/
  | text (s : Bytes)
  | number (v : F64)
  /-- A bare word, or a date. -/
  | word (w : Bytes)
  | node (n : Node)

end

namespace Node

def keyword : Node → Bytes
  | mk keyword _ _ => keyword

def args : Node → List Arg
  | mk _ args _ => args

end Node

/-! ## Errors -/

/-- What the parser did not find. -/
inductive Missing where
  | shallowNodes
  | aKeyword
  | bracket (keyword : Bytes)
  | close (b : UInt8) (keyword : Bytes)
  | value
  | quote
  | number
  | vertcs
  | textEnd

def Missing.message : Missing → Bytes
  | .shallowNodes => utf8 "nodes nested too deeply"
  | .aKeyword => utf8 "expected a keyword"
  | .bracket keyword => utf8 "expected [ after " ++ keyword
  | .close b keyword => utf8 "expected , or " ++ b :: utf8 " in " ++ keyword
  | .value => utf8 "expected a value"
  | .quote => utf8 "unterminated string"
  | .number => utf8 "not a number"
  | .vertcs => utf8 "a second object that isn't a VERTCS"
  | .textEnd => utf8 "text after the end of the WKT"

/-- The bytes of the first `n` characters. -/
def firstChars (n : Nat) : Bytes → Bytes
  | [] => []
  | b :: rest =>
    if b.toNat / 64 = 2 then b :: firstChars n rest
    else match n with
      | 0 => []
      | n + 1 => b :: firstChars n rest

/-- `Error::Wkt`; `near` stands at its end, with escapes. -/
structure Error where
  offset : Nat
  message : Bytes
  near : Bytes

/-- `Parser::error`, with `s` left of `text`. -/
def fail {α : Type} (text s : Bytes) (missing : Missing) : Checked Error α :=
  let near := firstChars 30 s
  Checked.fail ⟨text.length - s.length,
    missing.message ++ if near.isEmpty then utf8 ", at the end" else utf8 ", at ", near⟩

/-! ## Tokens -/

def skipSpace (s : Bytes) : Bytes := s.dropWhile isAsciiWhitespace

def isAsciiAlphabetic (b : UInt8) : Bool := (0x41 ≤ b && b ≤ 0x5a) || (0x61 ≤ b && b ≤ 0x7a)

def toAsciiUppercase (b : UInt8) : UInt8 := if 0x61 ≤ b && b ≤ 0x7a then b - 0x20 else b

def isWordByte (b : UInt8) : Bool := isAsciiAlphabetic b || isDigit b || b = 0x5f

/-- `Parser::word` -/
def word (s : Bytes) : Bytes × Bytes := (s.takeWhile isWordByte, s.dropWhile isWordByte)

/-- What ends a date. -/
def endsDate (b : UInt8) : Bool := b = 0x2c || b = 0x5d || b = 0x29 || isAsciiWhitespace b

/-- Four digits and a `-` or `T`. -/
def isDate (s : Bytes) : Bool :=
  4 < s.length && (s.take 4).all isDigit && (s[4]? = some 0x2d || s[4]? = some 0x54)

/-- `Parser::date_time` -/
def dateTime (s : Bytes) : Option (Bytes × Bytes) :=
  if isDate s then some (s.takeWhile (!endsDate ·), s.dropWhile (!endsDate ·)) else none

def openQuote : Bytes := [0xe2, 0x80, 0x9c]

def closeQuote : Bytes := [0xe2, 0x80, 0x9d]

/-- `Parser::curly_quoted`, past the opening quote. -/
def curlyQuoted (s : Bytes) : Option (Bytes × Bytes) :=
  (indexOf closeQuote s).map fun at_ => (s.take at_, s.drop (at_ + 3))

/-- The loop of `Parser::quoted`, past the opening quote; where no quote ends the
string, what is left after the last one. -/
def quoted : Bytes → Bytes → Except Bytes (Bytes × Bytes)
  | seg, [] => .error seg
  | seg, [b] => if b = 0x22 then .ok ([], []) else .error seg
  | seg, b :: c :: s =>
    if b = 0x22 then
      if c = 0x22 then (quoted s s).map fun (out, rest) => (0x22 :: out, rest)
      else .ok ([], c :: s)
    else (quoted seg (c :: s)).map fun (out, rest) => (b :: out, rest)

def takeSignText : Bytes → Bytes × Bytes
  | [] => ([], [])
  | b :: s => if b = 0x2b ∨ b = 0x2d then ([b], s) else ([], b :: s)

/-- The characters that `Parser::number` takes. -/
def numberToken (s : Bytes) : Bytes × Bytes :=
  let (sign, s) := takeSignText s
  let isMantissa := fun b => isDigit b || b = 0x2e
  let mantissa := sign ++ s.takeWhile isMantissa
  match s.dropWhile isMantissa with
  | [] => (mantissa, [])
  | b :: s =>
    if b = 0x65 ∨ b = 0x45 then
      let (sign, s) := takeSignText s
      (mantissa ++ b :: (sign ++ s.takeWhile isDigit), s.dropWhile isDigit)
    else (mantissa, b :: s)

/-- The bits of the double nearest to a number of 0 or more, ties to even; infinity
where there is none. -/
def nearestBits (q : ℚ) : Nat :=
  let x := q * 2 ^ 1074
  let exponent := Nat.log 2 ⌊x⌋₊ - 52
  min (exponent * 2 ^ 52 + nearest (x / 2 ^ exponent)) (2047 * 2 ^ 52)

/-- `str::parse::<f64>` of a token. -/
def parseF64 (token : Bytes) : Option F64 :=
  let (sign, digits) := takeSignText token
  (Angles.parseNumber digits).map fun q =>
    ⟨UInt64.ofNat (nearestBits q + if sign = [0x2d] then 2 ^ 63 else 0)⟩

/-! ## The parser -/

variable (text : Bytes)

/-- `Parser::arg`, a nested node read by `node`. -/
def arg (node : Bytes → Checked Error (Node × Bytes)) (s : Bytes) : Checked Error (Arg × Bytes) :=
  match dateTime s, s with
  | some (date, s), _ => .ok (.word date, s)
  | none, [] => fail text s .value
  | none, b :: rest =>
    if b = 0x22 then
      match quoted rest rest with
      | .ok (out, s) => .ok (.text out, s)
      | .error seg => fail text seg .quote
    else if openQuote.isPrefixOf s then
      match curlyQuoted (s.drop 3) with
      | some (out, s) => .ok (.text out, s)
      | none => fail text (s.drop 3) .quote
    else if isDigit b || b = 0x2b || b = 0x2d || b = 0x2e then
      match parseF64 (numberToken s).1 with
      | some v => .ok (.number v, (numberToken s).2)
      | none => fail text s .number
    else if isAsciiAlphabetic b then
      let after := skipSpace (word s).2
      if after.head? = some 0x5b ∨ after.head? = some 0x28 then
        (fun (n, s) => (.node n, s)) <$> node s
      else .ok (.word (word s).1, after)
    else fail text s .value

/-- The loop over the arguments of a node, up to and with its closing bracket. -/
def args (node : Bytes → Checked Error (Node × Bytes)) (keyword : Bytes) (close : UInt8) :
    Nat → Bytes → Checked Error (List Arg × Bytes)
  | 0, _ => Checked.panic
  | fuel + 1, s => do
    let (a, s) ← arg text node (skipSpace s)
    match skipSpace s with
    | [] => fail text [] (.close close keyword)
    | b :: s =>
      if b = 0x2c then
        let (as, s) ← args node keyword close fuel s
        .ok (a :: as, s)
      else if b = close then .ok ([a], s)
      else fail text (b :: s) (.close close keyword)

/-- `Parser::node`, with so many levels left. -/
def node : Nat → Bytes → Checked Error (Node × Bytes)
  | 0, s => fail text s .shallowNodes
  | levels + 1, s =>
    if !s.head?.any isAsciiAlphabetic then fail text s .aKeyword
    else
      let offset := text.length - s.length
      let keyword := (word s).1.map toAsciiUppercase
      match skipSpace (word s).2 with
      | [] => fail text [] (.bracket keyword)
      | b :: s =>
        if b ≠ 0x5b ∧ b ≠ 0x28 then fail text (b :: s) (.bracket keyword)
        else
          let close := if b = 0x5b then 0x5d else 0x29
          if (skipSpace s).head? = some close then .ok (.mk keyword [] offset, (skipSpace s).drop 1)
          else do
            let (as, s) ← args text (node levels) keyword close (s.length + 1) (skipSpace s)
            .ok (.mk keyword as offset, s)

def Arg.isVertcs : Arg → Bool
  | .node n => n.keyword = utf8 "VERTCS"
  | _ => false

/-- ESRI's horizontal CRSs. -/
def Node.isHorizontal (n : Node) : Bool :=
  n.keyword = utf8 "GEOGCS" || n.keyword = utf8 "PROJCS"

def compound (horizontal vertical : Arg) : Node :=
  .mk (utf8 "COMPD_CS") [.text [], horizontal, vertical] 0

/-- A `VERTCS` among the arguments of a horizontal CRS is taken out of it. -/
def Node.lifted (n : Node) : Node :=
  match n.args.find? Arg.isVertcs with
  | some vertical =>
    if n.isHorizontal then
      match n with
      | .mk keyword args offset =>
        compound (.node (.mk keyword (args.eraseP Arg.isVertcs) offset)) vertical
    else n
  | none => n

/-- One WKT object, all of the text apart from white space. -/
def parse : Checked Error Node := do
  let (n, s) ← node text (MAX_DEPTH + 1) (skipSpace text)
  let s := skipSpace s
  let n := n.lifted
  let (n, s) ←
    if s.head? = some 0x2c ∧ n.isHorizontal then do
      let start := skipSpace (s.drop 1)
      let (vertical, s) ← node text (MAX_DEPTH + 1) start
      if vertical.keyword ≠ utf8 "VERTCS" then fail text start .vertcs
      else .ok (compound (.node n) (.node vertical), skipSpace s)
    else .ok (n, s)
  if s ≠ [] then fail text s .textEnd else .ok n

/-! ## Writing -/

/-- `push_number` -/
def number (v : F64) : Bytes :=
  if v.eq F64.zero then [0x30]
  else
    let out := Number.write [] v
    if 0x65 ∈ out then out.set (out.idxOf 0x65) 0x45 else out

def escape (s : Bytes) : Bytes := s.flatMap fun b => if b = 0x22 then [0x22, 0x22] else [b]

def indent (pretty : Bool) (depth : Nat) : Bytes :=
  if pretty then 0x0a :: List.replicate (4 * depth) 0x20 else []

mutual

/-- `write_node` -/
def writeNode (pretty : Bool) : Node → Nat → Bytes
  | .mk keyword args _, depth =>
    keyword ++ 0x5b :: (writeArgs pretty args depth true false ++ [0x5d])

/-- Its loop over the arguments, which indents the axes one level deeper than the `CS`
before them. -/
def writeArgs (pretty : Bool) : List Arg → Nat → Bool → Bool → Bytes
  | [], _, _, _ => []
  | a :: as, depth, first, afterCs =>
    (if first then [] else [0x2c]) ++
      match a with
      | .node n =>
        let afterCs := afterCs || n.keyword = utf8 "CS"
        let extra := if afterCs && n.keyword = utf8 "AXIS" then 1 else 0
        indent pretty (depth + 1 + extra) ++ writeNode pretty n (depth + 1 + extra) ++
          writeArgs pretty as depth false afterCs
      | .text s => 0x22 :: (escape s ++ 0x22 :: writeArgs pretty as depth false afterCs)
      | .number v => number v ++ writeArgs pretty as depth false afterCs
      | .word w => w ++ writeArgs pretty as depth false afterCs

end

/-- The text of a node, on one line or indented as PROJ indents it. -/
def format (n : Node) (pretty : Bool) : Bytes := writeNode pretty n 0

end Xeibe.Reproject.Wkt
