import Mathlib.Computability.RegularExpressions
import Mathlib.Data.Nat.Digits.Defs
import RLucene.Store.DataOutput

/-!
# Index file names

The names of the files of an index, and the pattern that recognises codec files. A regular
expression of the source is one over classes of characters; `is_match` of the regex crate searches
for a match anywhere in the name, where a whole-name match would ask that the name itself is in the
language.
-/

namespace RLucene.Index

open Store

namespace IndexFileNames

/-- The start of the name of a commit. -/
def segments : String := "segments"

/-- The same before it is complete. -/
def pendingSegments : String := "pending_segments"

/-- Whether a name starts so. -/
def startsWith (name start : String) : Bool :=
  start.toList.isPrefixOf name.toList

/-- Whether a name ends so. -/
def endsWith (name stop : String) : Bool :=
  stop.toList.isSuffixOf name.toList

/-! ## Building names -/

/-- The name of a file of a segment. -/
def segmentFileName (segmentName segmentSuffix ext : String) : String :=
  if ext ≠ "" ∨ segmentSuffix ≠ "" then
    segmentName ++ (if segmentSuffix ≠ "" then "_" ++ segmentSuffix else "") ++
      (if ext ≠ "" then "." ++ ext else "")
  else segmentName

/-- A digit in base 36. -/
def digitChar36 (d : Nat) : Char :=
  if d < 10 then Char.ofNat ('0'.toNat + d) else Char.ofNat ('a'.toNat + (d - 10))

/-- A number other than zero in base 36. -/
def toStrRadix36 (n : Int) : String :=
  (if n < 0 then "-" else "") ++ String.ofList ((Nat.digits 36 n.natAbs).reverse.map digitChar36)

/-- The name of a generation. -/
def fileNameFromGeneration (base ext : String) (generation : Int) : Option String :=
  if generation = -1 then none
  else if generation = 0 then some (segmentFileName base "" ext)
  else some (base ++ "_" ++ toStrRadix36 generation ++ (if ext ≠ "" then "." ++ ext else ""))

/-! ## Taking names apart -/

/-- The value of a digit in base 36. -/
def digit36 (c : Char) : Option Nat :=
  if '0' ≤ c ∧ c ≤ '9' then some (c.toNat - '0'.toNat)
  else if 'a' ≤ c ∧ c ≤ 'z' then some (c.toNat - 'a'.toNat + 10)
  else if 'A' ≤ c ∧ c ≤ 'Z' then some (c.toNat - 'A'.toNat + 10)
  else none

/-- The number of some digits, if all of them are. -/
def digits36 (acc : Nat) : List Char → Option Nat
  | [] => some acc
  | c :: rest =>
    match digit36 c with
    | some d => digits36 (36 * acc + d) rest
    | none => none

/-- `i64::from_str_radix` in base 36: digits with an optional sign, in the range of the type. -/
def fromStrRadix36 (text : List Char) : Option Int :=
  let parsed : Option Int :=
    match text with
    | [] => none
    | '+' :: [] | '-' :: [] => none
    | '+' :: rest => (digits36 0 rest).map fun n => (n : Int)
    | '-' :: rest => (digits36 0 rest).map fun n => -(n : Int)
    | text => (digits36 0 text).map fun n => (n : Int)
  parsed.filter fun n => -2 ^ 63 ≤ n ∧ n < 2 ^ 63

/-- Drop the first byte of a text; a first character of several bytes has no boundary there. -/
def dropByte : List Char → Result (List Char)
  | [] => .error .indexOutOfBounds
  | c :: rest => if c.toNat < 128 then .ok rest else .error .indexOutOfBounds

/-- The boundary of the segment name: the second underscore, or else the first dot. -/
def indexOfSegmentName (filename : List Char) : Option Nat :=
  match (filename.drop 1).findIdx? (· = '_') with
  | some i => some (i + 1)
  | none => filename.findIdx? (· = '.')

/-- The name of the segment of a file. -/
def parseSegmentName (filename : List Char) : List Char :=
  match indexOfSegmentName filename with
  | some i => filename.take i
  | none => filename

/-- The name without what comes after a dot. -/
def stripExtension (filename : List Char) : List Char :=
  filename.takeWhile (· ≠ '.')

/-- The generation in a file name, or zero. The four forms of names are `segment`,
`segment_gen`, `segment_codec_suffix` and `segment_gen_codec_suffix`. -/
def parseGeneration (filename : List Char) : Result Int := do
  let stripped ← dropByte (stripExtension filename)
  match stripped.splitOn '_' with
  | _ :: generation :: rest =>
    if rest.length = 0 ∨ rest.length = 2 then
      match fromStrRadix36 generation with
      | some n => return n
      | none => .error .parseInt
    else return 0
  | _ => return 0

/-- A name that is not used any more. -/
def oldSegmentsGen : String := "segments.gen"

/-- The generation that a name gives. -/
def generationFromSegmentsFileName (fileName : String) : Result Int :=
  if fileName = oldSegmentsGen then
    .error (.illegalArgument s!"\"{oldSegmentsGen}\" is not a valid segment file name since 4.0")
  else if fileName = segments then .ok 0
  else if startsWith fileName segments then do
    let generation ← dropByte (fileName.toList.drop segments.length)
    match fromStrRadix36 generation with
    | some n => return n
    | none => .error (.numberFormat s!"Failed to parse generation from file name: \"{fileName}\"")
  else .error (.illegalArgument s!"fileName \"{fileName}\" is not a segments file")

/-! ## The codec file pattern -/

/-- The classes of characters that the pattern distinguishes. -/
inductive CharClass where
  | underscore
  | dot
  | alphanumeric
  | newline
  | other
  deriving DecidableEq, Repr

/-- The class of a character. -/
def CharClass.of (c : Char) : CharClass :=
  if c = '_' then underscore
  else if c = '.' then dot
  else if 'a' ≤ c ∧ c ≤ 'z' ∨ '0' ≤ c ∧ c ≤ '9' then alphanumeric
  else if c = '\n' then newline
  else other

/-- Any character but a line feed. -/
def anyChar : RegularExpression CharClass :=
  .plus (.char .underscore) (.plus (.char .dot) (.plus (.char .alphanumeric) (.char .other)))

/-- The expression `_[a-z0-9]+(_.*)?\..*`. -/
def codecFilePattern : RegularExpression CharClass :=
  .comp (.char .underscore)
    (.comp (.comp (.char .alphanumeric) (.star (.char .alphanumeric)))
      (.comp (.plus .epsilon (.comp (.char .underscore) (.star anyChar)))
        (.comp (.char .dot) (.star anyChar))))

/-- `Regex::is_match`: some part of the text is in the language. -/
def isMatch {α : Type} [DecidableEq α] (P : RegularExpression α) (text : List α) : Bool :=
  text.tails.any fun rest => rest.inits.any P.rmatch

/-- The classes of the characters of a name. -/
def classes (name : String) : List CharClass :=
  name.toList.map CharClass.of

/-- Whether a name matches the pattern of the files of a segment. -/
def codecFilePatternIsMatch (name : String) : Bool :=
  isMatch codecFilePattern (classes name)

/-- The name as a whole is that of an index file. -/
def IsIndexFileName (name : String) : Prop :=
  startsWith name segments = true ∨ startsWith name pendingSegments = true ∨
    classes name ∈ codecFilePattern.matches'

/-- Whether it is one is decided by the pattern. -/
instance (name : String) : Decidable (IsIndexFileName name) :=
  decidable_of_iff (startsWith name segments = true ∨ startsWith name pendingSegments = true ∨
    codecFilePattern.rmatch (classes name) = true) (by
      rw [RegularExpression.rmatch_iff_matches', IsIndexFileName])

end IndexFileNames

end RLucene.Index
