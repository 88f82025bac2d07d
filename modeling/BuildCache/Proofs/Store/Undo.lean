import BuildCache.Proofs.Store.Interleaving

/-! # Puts that fail: nothing of them is left but a directory for the shard -/
namespace BuildCache

namespace Disk

variable {d d' : Disk} {action : Tree → Except Fault Tree} {t : Tree}

end Disk

namespace Store

variable {s t u : Store} {k : CacheKey} {a : Artifact} {p temp : Path} {e : CacheError}

/-- A place is as it was, or a directory was made there on the way to another. -/
def Keeps (way : Path) (t t' : Tree) (p : Path) : Prop :=
  t'.node? p = t.node? p ∨ t.node? p = none ∧ t'.node? p = some .directory ∧ p <+: way

/-- What a put fails with: the artifact has another key, or one of three calls failed. -/
inductive Fails (s : Store) (k : CacheKey) (a : Artifact) : CacheError → Prop
  | key (h : a.key ≠ k) : Fails s k a (.keyMismatch k a.key)
  | shard (h : a.key = k) (fault : Fault) : Fails s k a (Index.ioError (shardPath s.root k) fault)
  | temp (h : a.key = k) (fault : Fault) : Fails s k a (Index.ioError (s.tempPath k) fault)
  | place (h : a.key = k) (fault : Fault) : Fails s k a (Index.ioError (s.pathOf k) fault)

theorem Keeps.node?_tempPath {u v : Tree} (h : Keeps (shardPath s.root k) u v (s.tempPath k)) :
    v.node? (s.tempPath k) = u.node? (s.tempPath k) := by
  refine h.resolve_right ?_
  rintro ⟨-, -, hpre⟩
  have hlen := hpre.length_le
  simp at hlen

/-- A store whose third call on the disk is refused, which for a put is the one that moves its file into place. -/
def refusing : Store := { stocked (sample 1).encode with disk.refusals := [false, false, true] }

end Store
end BuildCache
