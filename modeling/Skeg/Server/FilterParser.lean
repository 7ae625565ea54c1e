import Skeg.Server.Payload

/-!
# The parser of FILTER clauses

`tokenize` and `parse_filter` of `payload.rs`, a parser by recursive descent: `OR` of `AND` of atoms that
`NOT` may stand in front of.  A parser returns the filter and the tokens behind it.  The recursion goes
down a bound that every token gives four steps to: it is enough, as each level of nesting and each turn
of a loop takes a token.
-/

namespace Skeg.Server

def isKeyword (t kw : String) : Bool := toAsciiUppercase t = kw

def isReserved (t : String) : Bool :=
  ["=", ">", "<", ">=", "<=", "(", ")", ","].contains t ||
    ["AND", "OR", "NOT", "IN", "BETWEEN", "EXISTS"].any (isKeyword t)

/-- The word that ends here, if one has begun. -/
def flush (cur : List Char) (toks : List String) : List String :=
  if cur.isEmpty then toks else String.ofList cur :: toks

/-- The tokens, with the word that has begun. -/
def tokenizeFrom : List Char → List Char → List String
  | cur, [] => flush cur []
  | cur, '>' :: '=' :: cs => flush cur (">=" :: tokenizeFrom [] cs)
  | cur, '<' :: '=' :: cs => flush cur ("<=" :: tokenizeFrom [] cs)
  | cur, c :: cs =>
    if c = '(' || c = ')' || c = ',' || c = '=' || c = '>' || c = '<' then
      flush cur (String.ofList [c] :: tokenizeFrom [] cs)
    else if isWhitespace c then flush cur (tokenizeFrom [] cs)
    else tokenizeFrom (cur ++ [c]) cs

def tokenize (s : String) : List String := tokenizeFrom [] s.toList

/-- What a parser of filters returns, and the tokens behind it. -/
abbrev FilterResult (α : Type) := Except String (α × List String)

def takeValue (what : String) : List String → FilterResult Value
  | [] => .error ("expected " ++ what)
  | tok :: toks =>
    if isReserved tok then .error ("expected " ++ what ++ ", got '" ++ tok ++ "'")
    else .ok (Value.parse tok, toks)

/-- The values of an `IN` list up to its closing bracket. -/
def parseInValues (vals : List Value) : Nat → List String → FilterResult (List Value)
  | 0, _ => .error "expected ',' or ')' in the IN list"
  | fuel + 1, toks =>
    match takeValue "a value in the IN list" toks with
    | .error e => .error e
    | .ok (v, "," :: toks) => parseInValues (vals ++ [v]) fuel toks
    | .ok (v, ")" :: toks) => .ok (vals ++ [v], toks)
    | .ok _ => .error "expected ',' or ')' in the IN list"

def parseIn (field : String) : List String → FilterResult Filter
  | "(" :: toks => (parseInValues [] (toks.length + 1) toks).map fun r => (.in_ field r.1, r.2)
  | _ => .error "expected '(' after IN"

/-- A comparison with a value. -/
def parseComparison (make : Value → Filter) (toks : List String) : FilterResult Filter :=
  (takeValue "a value" toks).map fun r => (make r.1, r.2)

def parseBetween (field : String) (toks : List String) : FilterResult Filter :=
  match takeValue "the BETWEEN lower bound" toks with
  | .error e => .error e
  | .ok (_, []) => .error "expected AND in BETWEEN"
  | .ok (lo, tok :: toks) =>
    if isKeyword tok "AND" then
      (takeValue "the BETWEEN upper bound" toks).map fun r =>
        (.range field (.included lo) (.included r.1), r.2)
    else .error "expected AND in BETWEEN"

def parsePredicate : List String → FilterResult Filter
  | [] => .error "expected a field name"
  | field :: toks =>
    if isReserved field then .error ("expected a field name, got '" ++ field ++ "'")
    else
      match toks with
      | [] => .error "expected an operator after the field"
      | op :: toks =>
        match op with
        | "=" => parseComparison (.eq field) toks
        | ">=" => parseComparison (fun v => .range field (.included v) .unbounded) toks
        | ">" => parseComparison (fun v => .range field (.excluded v) .unbounded) toks
        | "<=" => parseComparison (fun v => .range field .unbounded (.included v)) toks
        | "<" => parseComparison (fun v => .range field .unbounded (.excluded v)) toks
        | _ =>
          if isKeyword op "EXISTS" then .ok (.exists_ field, toks)
          else if isKeyword op "IN" then parseIn field toks
          else if isKeyword op "BETWEEN" then parseBetween field toks
          else .error ("expected an operator, got '" ++ op ++ "'")

/-- One part stands for itself. -/
def joinParts (make : List Filter → Filter) : List Filter → Filter
  | [f] => f
  | parts => make parts

mutual

def parseOr : Nat → List String → FilterResult Filter
  | 0, _ => .error "empty filter"
  | fuel + 1, toks => (parseAnd fuel toks).bind fun r => orTail fuel [r.1] r.2

/-- The loop of `parse_or`. -/
def orTail : Nat → List Filter → List String → FilterResult Filter
  | fuel + 1, parts, tok :: toks =>
    if isKeyword tok "OR" then (parseAnd fuel toks).bind fun r => orTail fuel (parts ++ [r.1]) r.2
    else .ok (joinParts .or parts, tok :: toks)
  | _, parts, toks => .ok (joinParts .or parts, toks)

def parseAnd : Nat → List String → FilterResult Filter
  | 0, _ => .error "empty filter"
  | fuel + 1, toks => (parseNot fuel toks).bind fun r => andTail fuel [r.1] r.2

/-- The loop of `parse_and`. -/
def andTail : Nat → List Filter → List String → FilterResult Filter
  | fuel + 1, parts, tok :: toks =>
    if isKeyword tok "AND" then (parseNot fuel toks).bind fun r => andTail fuel (parts ++ [r.1]) r.2
    else .ok (joinParts .and parts, tok :: toks)
  | _, parts, toks => .ok (joinParts .and parts, toks)

def parseNot : Nat → List String → FilterResult Filter
  | 0, _ => .error "empty filter"
  | _ + 1, [] => parsePredicate []
  | fuel + 1, tok :: toks =>
    if isKeyword tok "NOT" then (parseNot fuel toks).map fun r => (.not r.1, r.2)
    else if tok = "(" then
      match parseOr fuel toks with
      | .error e => .error e
      | .ok (f, ")" :: toks) => .ok (f, toks)
      | .ok _ => .error "expected ')'"
    else parsePredicate (tok :: toks)

end

def parseFilter (s : String) : Except String Filter :=
  let toks := tokenize s
  if toks.isEmpty then .error "empty filter"
  else
    match parseOr (4 * (toks.length + 1)) toks with
    | .error e => .error e
    | .ok (f, []) => .ok f
    | .ok (_, tok :: _) => .error ("unexpected trailing token '" ++ tok ++ "'")

end Skeg.Server
