import Skeg.Server.Erase
import Mathlib.Data.List.Sort

/-!
# The directory of the tenants

`tenant_dir` and `list_tenants` of `MultiTenantRoot`: a tenant's directory has the hexadecimal id for its name, and the
tenants are listed by reading the names back.  They are read two bytes at a time, as `unscope_key` of `shard.rs` reads
the tenant of an index.  A slice of a string panics when it cuts a character.
-/

/-! ### Reading two bytes at a time -/

namespace Skeg.Server

/-- The first `n` bytes of a text, unless they end inside a character, and what is behind them. -/
def splitBytes : Nat → List Char → Option (List Char × List Char)
  | 0, cs => some ([], cs)
  | _ + 1, [] => none
  | n + 1, c :: cs =>
    if c.utf8Size ≤ n + 1 then (splitBytes (n + 1 - c.utf8Size) cs).map fun p => (c :: p.1, p.2) else none

/-- `u8::from_str_radix` of two bytes. -/
def fromStrRadix16 : List Char → Option UInt8
  | [a, b] => hexByte a b
  | _ => none

/-- The bytes that the next `n` pairs stand for, if all of them are hexadecimal. -/
def hexPairs : Nat → List Char → Except String (Option Bytes)
  | 0, _ => .ok (some [])
  | n + 1, cs =>
    match splitBytes 2 cs with
    | none => .error "byte index is not a char boundary"
    | some (pair, rest) =>
      match fromStrRadix16 pair with
      | none => .ok none
      | some b => (hexPairs n rest).map (Option.map (b :: ·))

end Skeg.Server

/-! ### The root -/

namespace Skeg.Tenant

open Server (TenantId hexPairs)

/-- The type of an entry itself; a link is not followed. -/
inductive FileType where
  | file | dir | symlink
  deriving DecidableEq, Repr

inductive RootFault where
  | io (e : String)
  | panic (msg : String)
  deriving DecidableEq, Repr

structure DirEntry where
  fileName : Bytes
  fileType : Except String FileType

/-- The name of the tenant's directory in the root. -/
def tenantDir (tenant : TenantId) : Bytes :=
  utf8 (String.ofList
    (tenant.bytes.flatMap fun b => [Nat.digitChar (b.toNat / 16), Nat.digitChar (b.toNat % 16)]))

/-- An array of zeros of which the first bytes have been set. -/
def filled (id : Bytes) : TenantId :=
  ⟨(id ++ zeros 16).take 16, by rw [List.length_take, List.length_append, length_zeros]; omega⟩

/-- The tenant that an entry is listed for.  A name that is not text is passed over. -/
def entryTenant (e : DirEntry) : Except RootFault (Option TenantId) :=
  match fromUtf8 e.fileName with
  | none => .ok none
  | some name =>
    if (utf8 name).length ≠ 32 then .ok none
    else
      match hexPairs 16 name.toList with
      | .error msg => .error (.panic msg)
      | .ok none => .ok none
      | .ok (some id) =>
        match e.fileType with
        | .error io => .error (.io io)
        | .ok .dir => .ok (some (filled id))
        | .ok _ => .ok none

def scanEntries : List (Except String DirEntry) → Except RootFault (List TenantId)
  | [] => .ok []
  | .error io :: _ => .error (.io io)
  | .ok e :: rest =>
    match entryTenant e with
    | .error f => .error f
    | .ok none => scanEntries rest
    | .ok (some id) => (scanEntries rest).map (id :: ·)

/-- `none` is a root that does not exist; reading it, an entry or a type may fail. -/
def listTenants (root : Option (Except String (List (Except String DirEntry)))) : Except RootFault (List TenantId) :=
  match root with
  | none => .ok []
  | some (.error io) => .error (.io io)
  | some (.ok entries) => (scanEntries entries).map fun out => out.insertionSort fun a b => a.bytes ≤ b.bytes

end Skeg.Tenant
