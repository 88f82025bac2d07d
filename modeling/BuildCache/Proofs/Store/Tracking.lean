import BuildCache.Proofs.Recency.Eviction
import BuildCache.Proofs.Store.Opening
import BuildCache.Proofs.Store.Phases

/-! # What the calls of a store keep of its recency: all that inserting, using, erasing and evicting keep -/
namespace BuildCache.Store

variable {s : Store} {P : Recency → Prop} {k : CacheKey} {a : Artifact} {root : Path} {capacity : Option Nat}
  {process : Process} {d d' : Disk}

/-- What operations on entries keep, whatever becomes of pins. -/
structure Stable (P : Recency → Prop) : Prop where
  insert : ∀ {r : Recency}, P r → ∀ k size, P (r.insert k size)
  touch : ∀ {r : Recency}, P r → ∀ k, P (r.touch k)
  erase : ∀ {r : Recency}, P r → ∀ k, P (r.erase k)
  evictOver : ∀ {r : Recency}, P r → ∀ capacity, P (r.evictOver capacity).1

theorem recency_remove (s : Store) (k : CacheKey) : (s.remove k).1.recency = s.recency.erase k := by
  rw [remove, deleteFile_fst]

namespace Stable

theorem evict (hP : Stable P) (h : P s.recency) : P s.evict.recency := by
  simp only [Store.evict]
  split
  · exact h
  · next capacity _ =>
    obtain ⟨d, counters, hfold, -⟩ := exists_foldl_evictFile_eq
      { s with recency := (s.recency.evictOver capacity).1 } (s.recency.evictOver capacity).2
    rw [hfold]
    exact hP.evictOver h capacity

theorem settle (hP : Stable P) (h : P (s.recency.unpin k)) {reading : Reading}
    (hcrash : ∀ c, reading = .crashed c → P s.recency) : P (s.settle k reading).1.recency := by
  cases reading with
  | found a size =>
    simp only [Store.settle]
    split
    · exact hP.touch h k
    · exact hP.insert h k size
  | absent =>
    simp only [Store.settle]
    split
    · exact h
    · exact hP.erase h k
  | corrupt kind =>
    simp only [Store.settle, deleteFile_fst]
    exact hP.erase h k
  | failed e => exact h
  | crashed c => exact hcrash c rfl

theorem publish (hP : Stable P) (h : P s.recency) (a : Artifact) (temp : Path) :
    P (s.publish a temp).1.recency := by
  simp only [Store.publish]
  split
  · exact hP.touch h a.key
  · split
    · exact h
    · exact hP.evict (hP.insert h a.key a.encode.length)

theorem put (hP : Stable P) (h : P s.recency) (k : CacheKey) (a : Artifact) : P (s.put k a).1.recency := by
  simp only [Store.put]
  split
  · exact h
  · split
    · exact hP.touch h k
    · have hmake : (s.makeShard k).1.recency = s.recency := by rw [makeShard_fst]
      split
      · next t e ht =>
        rw [ht] at hmake
        exact hmake ▸ h
      · next t ht =>
        rw [ht] at hmake
        have hwrite : (t.writeTemp a).1.recency = t.recency := by rw [writeTemp_fst]
        rw [← hmake] at h
        split
        · next u e hu =>
          rw [hu] at hwrite
          exact hwrite ▸ h
        · next u temp hu =>
          rw [hu] at hwrite
          exact hP.publish (hwrite ▸ h) a temp

theorem remove (hP : Stable P) (h : P s.recency) (k : CacheKey) : P (s.remove k).1.recency := by
  rw [recency_remove]
  exact hP.erase h k

theorem sweep (hP : Stable P) (h : P s.recency) (removed : Nat) (keys : List CacheKey) :
    P (s.sweep removed keys).1.recency :=
  sweep_induction (P := fun t => P t.recency) (fun _ k _ ht => hP.remove ht k) h removed

end Stable

theorem stable_listed : Stable Recency.Listed where
  insert := .insert
  touch := .touch
  erase := .erase
  evictOver := by
    rintro r ⟨m, hm⟩ capacity
    rw [← KeyMap.mapValues_id m] at hm
    obtain ⟨dropped, -, -, hlists⟩ := hm.evictOver capacity
    exact ⟨_, hlists⟩

theorem listed_get (h : s.recency.Listed) (hback : ∀ c, (s.get k).2 ≠ .crashed c) :
    (s.get k).1.recency.Listed := by
  have hpinned : ((s.pin k).readFile k).1.recency = s.recency.pin k := by rw [readFile_fst]; rfl
  simp only [get] at hback ⊢
  revert hpinned hback
  rcases (s.pin k).readFile k with ⟨read, reading⟩
  intro hback hpinned
  apply stable_listed.settle
  · rwa [hpinned, h.unpin_pin]
  · rintro c rfl
    exact absurd rfl (hback c)

theorem Op.listed (h : s.recency.Listed) {op : Op} (hback : ∀ c, (op.onStore s).2 ≠ .found (.crashed c)) :
    (op.onStore s).1.recency.Listed := by
  cases op with
  | put k a => exact stable_listed.put h k a
  | get k => exact listed_get h fun c hc => hback c (congrArg Answer.found hc)
  | has k | saveIndex => exact h
  | remove k => exact stable_listed.remove h k
  | gc live => exact stable_listed.sweep h 0 _

theorem stable_reached : Stable Recency.Reached := ⟨.insert, .touch, .erase, .evictOver⟩

theorem reached_reconcile (found : KeyMap Nat) (index : Option Index) : (reconcile found index).Reached := by
  have htaken : ∀ (entries : List (CacheKey × Nat)) (r : Recency) (found : KeyMap Nat), r.Reached →
      (takeIndexed r found entries).1.Reached := by
    intro entries
    induction entries with
    | nil => exact fun r found h => h
    | cons e entries ih =>
      intro r found h
      rw [takeIndexed]
      split
      · exact ih _ _ (h.insert _ _)
      · exact ih _ _ h
  have hinserted : ∀ (entries : List (CacheKey × Nat)) (r : Recency), r.Reached →
      (entries.foldl (fun r e => r.insert e.1 e.2) r).Reached := by
    intro entries
    induction entries with
    | nil => exact fun r h => h
    | cons e entries ih => exact fun r h => ih _ (h.insert _ _)
  exact hinserted _ _ (htaken _ _ _ .empty)

theorem reached_open (h : Store.open d root capacity process = (d', .ok s)) : s.recency.Reached := by
  simp only [Store.open] at h
  split at h
  · cases h
  · split at h
    · cases h
    · cases h
      exact stable_reached.evict (reached_reconcile _ _)

theorem Phase.reached (h : s.recency.Reached) (phase : Phase) : (phase.step s).1.recency.Reached := by
  cases phase with
  | pin k => exact h.pin k
  | read k =>
    have hread : ((Phase.read k).step s).1 = { s with disk := (s.disk.look (·.read (s.pathOf k))).1 } :=
      readFile_fst s k
    rw [hread]
    exact h
  | settle k reading => exact stable_reached.settle (h.unpin k) fun _ _ => h
  | check k a => exact h
  | touch k => exact h.touch k
  | makeShard a =>
    rw [makeShard_step_fst, makeShard_fst]
    exact h
  | writeTemp a =>
    rw [writeTemp_step_fst, writeTemp_fst]
    exact h
  | publish a temp => exact stable_reached.publish h a temp
  | remove k => exact stable_reached.remove h k
  | gc live => exact stable_reached.sweep h 0 _

end BuildCache.Store
