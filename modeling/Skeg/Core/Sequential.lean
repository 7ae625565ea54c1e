import Skeg.Core.Recovery

/-!
# One operation after the other

A store that is used by one caller: an operation is started when the one before it has returned, and the
directory is closed and opened again between operations.  The relocations of a compaction still
interleave, and the committers flush when they like.
-/

namespace Skeg

namespace VLog

/-- No operation is in flight. -/
def AtRest (s : VLog) : Prop := s.tasks = ∅

instance (s : VLog) : Decidable s.AtRest :=
  decidable_of_iff (s.tasks.entries.isEmpty = true)
    ⟨fun h => AList.ext (List.isEmpty_iff.mp h), fun h => by rw [show s.tasks = ∅ from h]; rfl⟩

/-- The action starts an operation. -/
def Act.starts : Act → Bool
  | .spawn .. => true
  | _ => false

end VLog

/-! ### The map a store stands for -/

def putAll (m : Bytes → Option Bytes) (pairs : List (Bytes × Bytes)) : Bytes → Option Bytes :=
  pairs.foldl (fun m p => Function.update m p.1 (some p.2)) m

/-- What an operation that returns no error makes of the map. -/
def Op.effect (op : Op) (m : Bytes → Option Bytes) : Bytes → Option Bytes :=
  match op with
  | .set key value _ _ _ => Function.update m key (some value)
  | .append key value _ _ _ => Function.update m key (some ((m key).getD [] ++ value))
  | .setMany pairs _ => putAll m pairs
  | .del key _ => Function.update m key none
  | .get .. | .compactSegment _ | .maybeCompact | .reclaimAllDead | .writeSnapshot => m

/-- The operation started last, and the map as the operations that have returned left it. -/
structure MapModel where
  op : Option Op
  map : Bytes → Option Bytes

def MapModel.record (m : MapModel) : Event → MapModel
  | .spawned _ op => { m with op := some op }
  | .returned _ (.ok _) => { m with map := m.op.elim m.map fun op => op.effect m.map }
  | _ => m

/-- The map model of operations one after the other, on a store that was empty. -/
def mapModel (hist : List Event) : MapModel := hist.foldl MapModel.record ⟨none, fun _ => none⟩

end Skeg
