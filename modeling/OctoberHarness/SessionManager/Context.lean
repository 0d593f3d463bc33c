import Mathlib.Tactic

/-! The model context of a path of session entries: which entries a compaction
leaves in it, and what they are projected to. -/
namespace OctoberHarness.SessionManager

/-- What the context reads of an entry. A read that throws is `none`. -/
structure Reader (ε κ μ σ : Type) where
  id : ε → κ
  /-- The first kept entry of a compaction. -/
  firstKept : ε → Option κ
  /-- Whether the entry is a system message. -/
  isSystem : ε → Option Bool
  /-- What a context edit edits. -/
  editTarget : ε → Option κ
  /-- `projectContextEntry`. -/
  project : ε → Option ε → Option (List μ)
  /-- `getSessionContextSettings`. -/
  settings : List ε → Option σ

/-- `SessionProjection`. -/
structure Projection (ε μ σ : Type) where
  entries : List (ε × List μ)
  settings : σ

namespace Reader

variable {ε κ μ σ : Type} [DecidableEq κ] (r : Reader ε κ μ σ)

/-- The entries before a compaction from its first kept one on. -/
def retained (compaction : ε) (before : List ε) : List ε :=
  before.dropWhile fun entry => some (r.id entry) ≠ r.firstKept compaction

/-- `buildContextEntries` on a path. -/
def contextEntries (path : List ε) : Option (List ε) :=
  match path.reverse.find? fun entry => (r.firstKept entry).isSome with
  | none => some path
  | some compaction =>
    if ∃ entry ∈ r.retained compaction (path.takeWhile fun entry => r.id entry ≠ r.id compaction), r.isSystem entry = none
    then none
    else
      some (compaction ::
        (r.retained compaction (path.takeWhile fun entry => r.id entry ≠ r.id compaction)).filter
          (fun entry => r.isSystem entry = some false) ++
        (path.dropWhile fun entry => r.id entry ≠ r.id compaction).tail)

/-- The last edit of an entry. -/
def edit (entries : List ε) (id : κ) : Option ε :=
  entries.reverse.find? fun entry => r.editTarget entry = some id

/-- The messages of an entry; only the newest compaction, which comes first, has any. -/
def messages (entries : List ε) (entry : ε) (index : Nat) : Option (List μ) :=
  if (r.firstKept entry).isSome ∧ 0 < index then some [] else r.project entry (r.edit entries (r.id entry))

/-- `buildSessionProjection` on a path. -/
def projection (path : List ε) : Option (Projection ε μ σ) := do
  let settings ← r.settings path
  let entries ← r.contextEntries path
  let projected ← entries.zipIdx.mapM fun source => (r.messages entries source.1 source.2).map (source.1, ·)
  return ⟨projected, settings⟩

end Reader

end OctoberHarness.SessionManager
