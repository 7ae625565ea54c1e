import Skeg.Core.Text

/-!
# RESP frames and their encoding

`frame.rs`, `version.rs` and `encoder.rs`: the messages of both protocol versions, and the bytes
`encode_frame` appends for one.  A RESP2 client gets the types it does not know in terms of those it
does.

The text of a finite `f64` and its parser are the standard library's (`FloatText`).
-/

namespace Skeg.Resp3

/-! ### Doubles -/

/-- An `f64`, up to the payload of a NaN; `finite` has the sign and the two other fields. -/
inductive F64 where
  | nan
  | infinite (negative : Bool)
  | finite (negative : Bool) (exponent : Fin 2047) (fraction : Fin (2 ^ 52))
  deriving DecidableEq, Repr

instance neZero_exponent : NeZero 2047 := ⟨by decide⟩

instance neZero_fraction : NeZero (2 ^ 52) := ⟨by decide⟩

/-- `format!("{d}")` of a finite double, and `str::parse::<f64>`. -/
class FloatText where
  display : F64 → String
  parse : String → Option F64
  /-- Numbers, infinities and NaNs are written without line breaks. -/
  line_of_parse : ∀ {s d}, parse s = some d → 13 ∉ utf8 s ∧ 10 ∉ utf8 s

def formatDouble [FloatText] : F64 → String
  | .nan => "nan"
  | .infinite false => "inf"
  | .infinite true => "-inf"
  | d => FloatText.display d

/-! ### Frames -/

inductive Frame where
  | simple (line : String)
  | error (line : String)
  | integer (n : Int64)
  | bulk (data : Bytes)
  | null
  | array (items : List Frame)
  | blobError (code message : String)
  | boolean (v : Bool)
  | double (d : F64)
  | map (pairs : List (Frame × Frame))
  | set (items : List Frame)
  | push (items : List Frame)
  | verbatim (a b c : UInt8) (data : Bytes)
  | bigNumber (digits : String)

inductive ProtoVersion where
  | resp2
  | resp3
  deriving DecidableEq, Repr

def ProtoVersion.isResp3 (v : ProtoVersion) : Bool := v = .resp3

/-! ### Encoding -/

def crlf : Bytes := [13, 10]

def writeLine (marker : UInt8) (line : Bytes) : Bytes := marker :: line ++ crlf

def writeBulk (data : Bytes) : Bytes := 36 :: formatNat data.length ++ crlf ++ data ++ crlf

/-- The code, and the message if there is one. -/
def blobErrorPayload (code message : String) : Bytes :=
  if message = "" then utf8 code else utf8 code ++ [32] ++ utf8 message

def writeBlobError (code message : String) (version : ProtoVersion) : Bytes :=
  let payload := blobErrorPayload code message
  if version.isResp3 then 33 :: formatNat payload.length ++ crlf ++ payload ++ crlf
  else 45 :: payload ++ crlf

def writeVerbatim (fmt data : Bytes) (version : ProtoVersion) : Bytes :=
  if version.isResp3 then
    61 :: formatNat (3 + 1 + data.length) ++ crlf ++ fmt ++ [58] ++ data ++ crlf
  else writeBulk data

section

variable [FloatText] (version : ProtoVersion)

mutual

def encodeFrame : Frame → Bytes
  | .simple s => writeLine 43 (utf8 s)
  | .error s => writeLine 45 (utf8 s)
  | .integer n => 58 :: formatI64 n ++ crlf
  | .bulk b => writeBulk b
  | .null => if version.isResp3 then 95 :: crlf else [36, 45, 49] ++ crlf
  | .array items => 42 :: formatNat items.length ++ crlf ++ encodeItems items
  | .blobError code message => writeBlobError code message version
  | .boolean v =>
    if version.isResp3 then [35, if v then 116 else 102] ++ crlf
    else [58, if v then 49 else 48] ++ crlf
  | .double d =>
    if version.isResp3 then 44 :: utf8 (formatDouble d) ++ crlf else writeBulk (utf8 (formatDouble d))
  | .map pairs =>
    (if version.isResp3 then 37 :: formatNat pairs.length else 42 :: formatNat (pairs.length * 2)) ++
      crlf ++ encodePairs pairs
  | .set items =>
    (if version.isResp3 then 126 else 42) :: formatNat items.length ++ crlf ++ encodeItems items
  | .push items =>
    (if version.isResp3 then 62 else 42) :: formatNat items.length ++ crlf ++ encodeItems items
  | .verbatim a b c data => writeVerbatim [a, b, c] data version
  | .bigNumber s => if version.isResp3 then 40 :: utf8 s ++ crlf else writeBulk (utf8 s)

def encodeItems : List Frame → Bytes
  | [] => []
  | f :: fs => encodeFrame f ++ encodeItems fs

def encodePairs : List (Frame × Frame) → Bytes
  | [] => []
  | (k, v) :: ps => encodeFrame k ++ encodeFrame v ++ encodePairs ps

end

end

end Skeg.Resp3
