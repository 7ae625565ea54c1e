import Skeg.Lib.Incremental
import Skeg.Resp3.Frame

/-!
# The RESP parser

`parser.rs` and `decoder.rs`: `parse_frame` looks at the front of a buffer and returns a frame with the
number of bytes it took, nothing when the frame is not complete, or an error.  `FrameDecoder` keeps the
bytes that have been received and not taken.

An aggregate is parsed one level deeper than what it stands in; `left` are the levels that remain, so
that the depth of the source is `maxNestingDepth + 1 - left`.
-/

namespace Skeg.Resp3

open Incremental (Partial)

def maxAggregateLen : Nat := 1048576

def maxBulkLen : Nat := 512 * 1024 * 1024

def maxNestingDepth : Nat := 128

inductive ParseError where
  | unknownTypeMarker (c : UInt8)
  | invalidUtf8
  | invalidInteger (s : String)
  | invalidLength (n : Int64)
  | aggregateTooLarge (n : Nat)
  | nestingTooDeep (depth : Nat)
  | bulkTooLarge (n : Nat)
  | invalidBoolean (payload : Bytes)
  | invalidDouble (s : String)
  | invalidVerbatim
  | unexpectedPayload
  deriving DecidableEq

abbrev ParseResult (α : Type) := Partial ParseError (α × Nat)

/-! ### Lines -/

/-- Where the first CRLF starts. -/
def findCrlf : Bytes → Option Nat
  | [] => none
  | a :: rest => if a = 13 ∧ rest.head? = some 10 then some 0 else (findCrlf rest).map (· + 1)

def parseText (line : Bytes) : Except ParseError String :=
  match fromUtf8 line with
  | none => .error .invalidUtf8
  | some s => .ok s

/-- The `i64` of a line. -/
def parseNumber (line : Bytes) : Except ParseError Int64 :=
  match fromUtf8 line with
  | none => .error .invalidUtf8
  | some s =>
    match parseI64 (utf8 s) with
    | none => .error (.invalidInteger s)
    | some n => .ok n

/-- Read the line in front of the first CRLF. -/
def onLine {α : Type} (read : Bytes → Except ParseError α) (body : Bytes) : ParseResult α :=
  match findCrlf body with
  | none => .ok none
  | some stop => (read (body.take stop)).map fun a => some (a, stop + 2)

def parseLine (body : Bytes) : ParseResult String := onLine parseText body

def parseIntegerLine (body : Bytes) : ParseResult Int64 := onLine parseNumber body

def parseNullResp3 (body : Bytes) : ParseResult Frame :=
  onLine (fun line => if line.isEmpty then .ok .null else .error .unexpectedPayload) body

def parseBoolean (body : Bytes) : ParseResult Frame :=
  onLine (fun line =>
    if line = [116] then .ok (.boolean true)
    else if line = [102] then .ok (.boolean false)
    else .error (.invalidBoolean line)) body

def parseDouble [FloatText] (body : Bytes) : ParseResult Frame :=
  onLine (fun line =>
    match fromUtf8 line with
    | none => .error .invalidUtf8
    | some s =>
      match FloatText.parse s with
      | none => .error (.invalidDouble s)
      | some d => .ok (.double d)) body

def isAsciiDigit (b : UInt8) : Bool := 48 ≤ b && b ≤ 57

/-- An optional sign and digits. -/
def isBigNumber : Bytes → Bool
  | [] => false
  | b :: rest =>
    if b = 45 ∨ b = 43 then !rest.isEmpty && rest.all isAsciiDigit else (b :: rest).all isAsciiDigit

def parseBigNumber (body : Bytes) : ParseResult Frame :=
  onLine (fun line =>
    match fromUtf8 line with
    | none => .error .invalidUtf8
    | some s => if isBigNumber (utf8 s) then .ok (.bigNumber s) else .error (.invalidInteger s)) body

/-! ### Payloads -/

/-- The `len` bytes from `start` on, when they are there with a CRLF behind them. -/
def onPayload {α : Type} (body : Bytes) (start len : Nat) (finish : Bytes → Except ParseError α) :
    ParseResult α :=
  let stop := start + len
  if body.length < stop + 2 then .ok none
  -- a missing CRLF counts as a frame that is not complete
  else if (body.drop stop).take 2 ≠ crlf then .ok none
  else (finish ((body.drop start).take len)).map fun a => some (a, stop + 2)

/-- A payload whose length has been read; the three bulk types differ in what they allow for it. -/
def lengthChecked (len : Int64) (k : Nat → ParseResult Frame) : ParseResult Frame :=
  if len < 0 then .error (.invalidLength len)
  else if maxBulkLen < len.toInt.toNat then .error (.bulkTooLarge len.toInt.toNat)
  else k len.toInt.toNat

def parseBulk (body : Bytes) : ParseResult Frame :=
  (onLine parseNumber body).andThen fun (len, start) =>
    -- the null of RESP2
    if len = -1 then .ok (some (.null, start))
    else lengthChecked len fun len => onPayload body start len fun data => .ok (.bulk data)

/-- The code in front of the first space and the message behind it. -/
def splitCode : List Char → List Char × List Char
  | [] => ([], [])
  | c :: cs => if c = ' ' then ([], cs) else (c :: (splitCode cs).1, (splitCode cs).2)

def parseBlobError (body : Bytes) : ParseResult Frame :=
  (onLine parseNumber body).andThen fun (len, start) =>
    lengthChecked len fun len => onPayload body start len fun data =>
      match fromUtf8 data with
      | none => .error .invalidUtf8
      | some payload =>
        let (code, message) := splitCode payload.toList
        .ok (.blobError (String.ofList code) (String.ofList message))

def parseVerbatim (body : Bytes) : ParseResult Frame :=
  (onLine parseNumber body).andThen fun (len, start) =>
    lengthChecked len fun len =>
      -- three characters and a colon
      if len < 4 then .error .invalidVerbatim
      else onPayload body start len fun
        | a :: b :: c :: 58 :: data => .ok (.verbatim a b c data)
        | _ => .error .invalidVerbatim

/-! ### Aggregates -/

inductive AggKind where
  | array
  | set
  | push
  | map
  deriving DecidableEq

/-- `count` frames, one behind the other. -/
def parseItems (parse : Bytes → ParseResult Frame) : Nat → Bytes → ParseResult (List Frame)
  | 0, _ => .ok (some ([], 0))
  | count + 1, body =>
    (parse body).andThen fun (frame, n) =>
      (parseItems parse count (body.drop n)).andThen fun (items, m) =>
        .ok (some (frame :: items, n + m))

def pairs : List Frame → List (Frame × Frame)
  | k :: v :: rest => (k, v) :: pairs rest
  | _ => []

def AggKind.frame : AggKind → List Frame → Frame
  | array, items => .array items
  | set, items => .set items
  | push, items => .push items
  | map, items => .map (pairs items)

def parseAggregate (kind : AggKind) (parse : Bytes → ParseResult Frame) (body : Bytes) :
    ParseResult Frame :=
  (onLine parseNumber body).andThen fun (count, start) =>
    if count = -1 then
      -- only the array of RESP2 has a null form
      if kind = .array then .ok (some (.null, start)) else .error (.invalidLength (-1))
    else if count < 0 then .error (.invalidLength count)
    else if maxAggregateLen < count.toInt.toNat then .error (.aggregateTooLarge count.toInt.toNat)
    else
      let frameCount := if kind = .map then count.toInt.toNat * 2 else count.toInt.toNat
      (parseItems parse frameCount (body.drop start)).andThen fun (items, n) =>
        .ok (some (kind.frame items, start + n))

/-! ### Frames -/

/-- What follows a marker; `parse` is for the frames of an aggregate. -/
def parseBody [FloatText] (parse : Bytes → ParseResult Frame) (marker : UInt8) (body : Bytes) :
    ParseResult Frame :=
  match marker with
  | 43 => (parseLine body).andThen fun (s, n) => .ok (some (.simple s, n))
  | 45 => (parseLine body).andThen fun (s, n) => .ok (some (.error s, n))
  | 58 => (parseIntegerLine body).andThen fun (i, n) => .ok (some (.integer i, n))
  | 36 => parseBulk body
  | 42 => parseAggregate .array parse body
  | 95 => parseNullResp3 body
  | 35 => parseBoolean body
  | 44 => parseDouble body
  | 37 => parseAggregate .map parse body
  | 126 => parseAggregate .set parse body
  | 62 => parseAggregate .push parse body
  | 33 => parseBlobError body
  | 61 => parseVerbatim body
  | 40 => parseBigNumber body
  | c => .error (.unknownTypeMarker c)

/-- Count the marker, which has been taken off. -/
def shift (r : ParseResult Frame) : ParseResult Frame := r.andThen fun (f, n) => .ok (some (f, n + 1))

def parseFrameDepth [FloatText] : Nat → Bytes → ParseResult Frame
  | _, [] => .ok none
  | 0, _ :: _ => .error (.nestingTooDeep (maxNestingDepth + 1))
  | left + 1, marker :: body => shift (parseBody (parseFrameDepth left) marker body)

def parseFrame [FloatText] (input : Bytes) : ParseResult Frame :=
  parseFrameDepth (maxNestingDepth + 1) input

/-! ### The decoder -/

structure FrameDecoder where
  buf : Bytes

namespace FrameDecoder

def new : FrameDecoder := ⟨[]⟩

def feed (d : FrameDecoder) (bytes : Bytes) : FrameDecoder := ⟨d.buf ++ bytes⟩

/-- One frame off the front; on an error the bytes stay. -/
def decode [FloatText] (d : FrameDecoder) : Except ParseError (Option Frame × FrameDecoder) :=
  match parseFrame d.buf with
  | .error e => .error e
  | .ok none => .ok (none, d)
  | .ok (some (frame, n)) => .ok (some frame, ⟨d.buf.drop n⟩)

/-- Call `decode` until a frame is not complete; a frame takes at least one byte of the buffer. -/
def decodeAll [FloatText] : Nat → FrameDecoder → Except ParseError (List Frame × FrameDecoder)
  | 0, d => .ok ([], d)
  | fuel + 1, d =>
    match d.decode with
    | .error e => .error e
    | .ok (none, d) => .ok ([], d)
    | .ok (some frame, d) => (decodeAll fuel d).map fun r => (frame :: r.1, r.2)

/-- Feed chunks one after the other, decoding what is complete after each of them. -/
def feedAll [FloatText] : FrameDecoder → List Bytes → Except ParseError (List Frame × FrameDecoder)
  | d, [] => .ok ([], d)
  | d, chunk :: chunks =>
    match decodeAll ((d.feed chunk).buf.length + 1) (d.feed chunk) with
    | .error e => .error e
    | .ok (frames, d) => (feedAll d chunks).map fun r => (frames ++ r.1, r.2)

end FrameDecoder

end Skeg.Resp3
