import Skeg.Server.Payload

/-!
# The limits of the tenants and their file

`LimitsStore` of `limits.rs`: one line `<tenant-id> <max_vectors|*> <max_disk_bytes|*>` for every tenant.  A table is
written in some order of its entries, first to a temporary file that is then renamed.  A write or a rename may fail, and
a write that fails may leave any part of the text in the temporary file.
-/

namespace Skeg.Tenant

open Server (TenantId isWhitespace splitWhitespace)

/-- `max_vectors` and `max_disk_bytes`; `none` is unlimited. -/
abbrev Limits : Type := Option UInt64 × Option UInt64

inductive LimitsError where
  | os
  | invalidData (msg : String)
  deriving DecidableEq, Repr

def bad (msg : String) : LimitsError := .invalidData msg

structure LimitsStore where
  byTenant : AList fun _ : TenantId => Limits

/-- A tenant with its limits. -/
abbrev LimitsEntry : Type := Sigma fun _ : TenantId => Limits

/-! ### The text -/

def opt : Option UInt64 → List Char
  | none => ['*']
  | some x => Nat.toDigits 10 x.toNat

def parseOpt (s : List Char) : Except LimitsError (Option UInt64) :=
  if s = ['*'] then .ok none
  else
    match parseUnsigned 64 (utf8 (String.ofList s)) with
    | some n => .ok (some (UInt64.ofNat n))
    | none => .error (bad "bad limit")

/-- `u128::to_le_bytes`. -/
def tenantOfNat (n : Nat) : TenantId := ⟨toLE 16 n, length_toLE 16 n⟩

/-- The line of an entry, without the line feed. -/
def formatLine (e : LimitsEntry) : List Char :=
  Nat.toDigits 10 e.1.toNat ++ ' ' :: (opt e.2.1 ++ ' ' :: opt e.2.2)

def formatTable (order : List LimitsEntry) : String := String.ofList (order.flatMap fun e => formatLine e ++ ['\n'])

def stripCr (line : List Char) : List Char := if line.getLast? = some '\r' then line.dropLast else line

/-- `str::lines`, `line` being the one that has begun; the last line may have no line feed. -/
def lines : List Char → List Char → List (List Char)
  | [], line => if line.isEmpty then [] else [line]
  | c :: cs, line => if c = '\n' then stripCr line :: lines cs [] else lines cs (line ++ [c])

def parseLine (line : List Char) : Except LimitsError LimitsEntry :=
  match splitWhitespace line [] with
  | [t, mv, md] =>
    match parseUnsigned 128 (utf8 (String.ofList t)) with
    | none => .error (bad "bad tenant id")
    | some n => do
      let mv ← parseOpt mv
      let md ← parseOpt md
      .ok ⟨tenantOfNat n, mv, md⟩
  | _ => .error (bad "malformed quota line")

def parseLines : List (List Char) → (AList fun _ : TenantId => Limits) → Except LimitsError LimitsStore
  | [], byTenant => .ok ⟨byTenant⟩
  | line :: rest, byTenant =>
    match parseLine line with
    | .error e => .error e
    | .ok entry => parseLines rest (byTenant.insert entry.1 entry.2)

/-- The table of a text; blank lines are skipped. -/
def parseText (text : String) : Except LimitsError LimitsStore :=
  parseLines ((lines text.toList []).filter fun line => !line.all isWhitespace) ∅

/-! ### The store -/

/-- `fs::read_to_string` of a file that may be missing and may not be readable. -/
def readToString (file : Option Bytes) (readable : Bool) : Except LimitsError String :=
  match file, readable with
  | some bytes, true =>
    match fromUtf8 bytes with
    | some text => .ok text
    | none => .error (.invalidData "stream did not contain valid UTF-8")
  | _, _ => .error .os

/-- `LimitsStore::open`; every error of the read is taken for a missing file. -/
def openLimits (file : Option Bytes) (readable : Bool) : Except LimitsError LimitsStore :=
  match readToString file readable with
  | .ok text => parseText text
  | .error _ => .ok ⟨∅⟩

/-- The file and the temporary one. -/
structure LimitsDisk where
  file : Option Bytes
  tmp : Option Bytes

/-- Where `persist` fails: the temporary file cannot be created, only `n` bytes are written, or the rename fails. -/
inductive PersistFault where
  | create
  | write (n : Nat)
  | rename
  deriving DecidableEq, Repr

/-- How a `persist` goes: the order in which the map gives its entries, and where it fails. -/
structure PersistRun where
  order : List LimitsEntry
  fault : Option PersistFault

namespace LimitsStore

def get (s : LimitsStore) (tenant : TenantId) : Limits := (s.byTenant.lookup tenant).getD (none, none)

/-- There is no such run if the order is not one of the entries. -/
def persist (s : LimitsStore) (run : PersistRun) (disk : LimitsDisk) : Option (LimitsDisk × Except LimitsError Unit) :=
  if run.order.Perm s.byTenant.entries then
    let body := utf8 (formatTable run.order)
    match run.fault with
    | some .create => some (disk, .error .os)
    | some (.write n) => some ({ disk with tmp := some (body.take n) }, .error .os)
    | some .rename => some ({ disk with tmp := some body }, .error .os)
    | none => some (⟨some body, none⟩, .ok ())
  else none

def set (s : LimitsStore) (tenant : TenantId) (limits : Limits) (run : PersistRun) (disk : LimitsDisk) :
    Option (LimitsStore × LimitsDisk × Except LimitsError Unit) :=
  let s := { s with byTenant := s.byTenant.insert tenant limits }
  (s.persist run disk).map fun r => (s, r)

def remove (s : LimitsStore) (tenant : TenantId) (run : PersistRun) (disk : LimitsDisk) :
    Option (LimitsStore × LimitsDisk × Except LimitsError Unit) :=
  let s := { s with byTenant := s.byTenant.erase tenant }
  (s.persist run disk).map fun r => (s, r)

end LimitsStore

/-! ### Calls one after the other -/

inductive LimitsAct where
  | set (tenant : TenantId) (limits : Limits) (run : PersistRun)
  | remove (tenant : TenantId) (run : PersistRun)
  | reopen (readable : Bool)

/-- The table that has been written, the tables before and after a call that returns an error, and a reopening. -/
inductive LimitsEvent where
  | persisted (store : LimitsStore)
  | failed (before after : LimitsStore)
  | reopened (file : Option Bytes) (readable : Bool) (result : Except LimitsError LimitsStore)

/-- There is no store after an `open` that fails. -/
structure LimitsSys where
  store : Option LimitsStore
  disk : LimitsDisk

/-- What a call of `set` or `remove` shows. -/
def callEvent (before after : LimitsStore) : Except LimitsError Unit → LimitsEvent
  | .ok () => .persisted after
  | .error _ => .failed before after

def limitsStep (s : LimitsSys) : LimitsAct → Option (LimitsSys × List LimitsEvent)
  | .set tenant limits run => s.store.bind fun store =>
    (store.set tenant limits run s.disk).map fun r => (⟨some r.1, r.2.1⟩, [callEvent store r.1 r.2.2])
  | .remove tenant run => s.store.bind fun store =>
    (store.remove tenant run s.disk).map fun r => (⟨some r.1, r.2.1⟩, [callEvent store r.1 r.2.2])
  | .reopen readable =>
    let result := openLimits s.disk.file readable
    some (⟨result.toOption, s.disk⟩, [.reopened s.disk.file readable result])

end Skeg.Tenant
