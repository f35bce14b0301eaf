import Mathlib.Data.List.Basic
import Mathlib.Data.List.Chain
import Mathlib.Data.List.DropRight
import Mathlib.Data.List.Infix

/-!
# The tokens of a PROJ string

A PROJ string is cleaned in two passes and cut into words at the spaces outside
of quoted values; a word is a key with a value, or a bare key.  Every character
that matters is ASCII, so the bytes of the source are characters here.
-/

namespace Xeibe.Reproject.ProjString

abbrev Text := List Char

structure KeyValue where
  key : Text
  /-- Empty for a bare key. -/
  value : Text
deriving DecidableEq, Repr

/-- `word.split_once('=')`, or a bare key. -/
def KeyValue.new (word : Text) : KeyValue :=
  ⟨word.takeWhile (· ≠ '='), (word.dropWhile (· ≠ '=')).drop 1⟩

def doubleQuoteIfNeeded (s : Text) : Text :=
  if ' ' ∈ s then '"' :: (s.flatMap fun c => if c = '"' then ['"', '"'] else [c]) ++ ['"'] else s

/-- White space of ASCII, the vertical tab with it. -/
def isSpace (c : Char) : Bool :=
  c = ' ' || c = '\t' || c = '\n' || c = '\x0c' || c = '\r' || c = '\x0b'

/-- White space or a semicolon. -/
def isGap (c : Char) : Bool := isSpace c || c = ';'

/-- Without a comment, and without white space and semicolons around. -/
def chomp (s : Text) : Text :=
  match (s.takeWhile (· ≠ '#')).dropWhile isGap with
  | [] => []
  | c :: rest => c :: rest.rdropWhile isGap

/-- The loop over the characters: inside of a quoted value or not, after white
space or not, and what is written. -/
@[grind =]
def shrinkLoop : Bool → Bool → Text → Text → Text
  | _, _, out, [] => out
  | true, ws, out, '"' :: '"' :: c => shrinkLoop true ws (out ++ ['"', '"']) c
  | true, ws, out, b :: c => shrinkLoop (b ≠ '"') ws (out ++ [b]) c
  | false, ws, out, b :: c =>
    let b := if b = '+' ∧ (out = [] ∨ ws) then ' ' else b
    if b = '"' ∧ out.getLast? = some '=' then
      shrinkLoop true false (out ++ [b]) c
    else if isGap b then
      shrinkLoop false true (if !ws ∧ out ≠ [] then out ++ [' '] else out) c
    else
      shrinkLoop false false (out ++ [b]) c

/-- One character more, with the white space around `=` and `,` taken up. -/
def takeUp (greedy : Text) (b : Char) : Text :=
  if greedy = [] then [b]
  else if b = '=' ∨ b = ',' then
    if greedy.getLast? = some ' ' then greedy.dropLast ++ [b] else greedy ++ [b]
  else if b = ' ' ∧ (greedy.getLast? = some '=' ∨ greedy.getLast? = some ',') then greedy
  else greedy ++ [b]

def shrink (s : Text) : Text := (shrinkLoop false false [] (chomp s)).foldl takeUp []

/-- The words of a shrunk string, with their quotes. -/
@[grind =]
def words : Bool → Text → Text → List Text
  | _, word, [] => [word]
  | true, word, '"' :: '"' :: s => words true (word ++ ['"', '"']) s
  | true, word, b :: s => words (b ≠ '"') (word ++ [b]) s
  | false, word, '=' :: '"' :: s => words true (word ++ ['=', '"']) s
  | false, word, ' ' :: s => word :: words false [] s
  | false, word, b :: s => words false (word ++ [b]) s

/-- What stands before the first `="`, with the `=`, and what stands after it. -/
@[grind =]
def splitQuote : Text → Option (Text × Text)
  | '=' :: '"' :: rest => some (['='], rest)
  | c :: rest => (splitQuote rest).map fun p => (c :: p.1, p.2)
  | [] => none

/-- Quotes that are doubled as they were, up to one that isn't. -/
@[grind =]
def unescape : Text → Text
  | '"' :: '"' :: rest => '"' :: unescape rest
  | '"' :: _ => []
  | c :: rest => c :: unescape rest
  | [] => []

def unquote (word : Text) : Text :=
  match splitQuote word with
  | none => word
  | some (before, rest) =>
    if word.getLast? ≠ some '"' ∨ rest = [] then word else before ++ unescape rest

def arguments (text : Text) : List Text :=
  let s := shrink text
  if s = [] then [] else (words false [] s).map unquote

/-- The keys and values of a string. -/
def pairs (text : Text) : List KeyValue := (arguments text).map KeyValue.new

/-- A pair as it is written after its plus sign. -/
def KeyValue.body (kv : KeyValue) : Text :=
  if kv.value = [] then kv.key else kv.key ++ '=' :: doubleQuoteIfNeeded kv.value

/-- The pairs written out again. -/
def requoted (kvs : List KeyValue) : Text :=
  List.intercalate [' '] (kvs.map fun kv => '+' :: kv.body)

example : pairs "  proj = utm ;  +zone =33 # a comment".toList =
    [⟨"proj".toList, "utm".toList⟩, ⟨"zone".toList, "33".toList⟩] := by decide

end Xeibe.Reproject.ProjString
