import Mathlib.Data.List.Nodup
import BuildCache.NameMap

/-! # Finite maps from names: bindings as a set, maps made of lists, and the bindings of some names -/
namespace BuildCache.NameMap

variable {α β : Type}

theorem nodup_names (m : NameMap α) : m.names.Nodup := by
  refine List.nodup_iff_pairwise_ne.mpr (List.pairwise_map.mpr (m.sorted.imp fun {a b} h he => ?_))
  rw [he] at h
  exact String.lt_irrefl _ h

private theorem find?_entries {entries : List (String × α)} (hn : (entries.map (·.1)).Nodup)
    {n : String} {a : α} :
    (entries.find? (·.1 = n)).map (·.2) = some a ↔ (n, a) ∈ entries := by
  constructor
  · intro h
    obtain ⟨e, he, rfl⟩ := Option.map_eq_some_iff.mp h
    have hen : e.1 = n := by simpa using List.find?_some he
    exact hen ▸ List.mem_of_find?_eq_some he
  · intro h
    have hsome : (entries.find? (·.1 = n)).isSome := List.find?_isSome.mpr ⟨(n, a), h, by simp⟩
    obtain ⟨e, he⟩ := Option.isSome_iff_exists.mp hsome
    have hen : e.1 = n := by simpa using List.find?_some he
    have heq : e = (n, a) := List.inj_on_of_nodup_map hn (List.mem_of_find?_eq_some he) h hen
    rw [he, heq]
    rfl

theorem find?_eq_some {m : NameMap α} {n : String} {a : α} : m.find? n = some a ↔ (n, a) ∈ m.entries :=
  find?_entries m.nodup_names

theorem mem_names {m : NameMap α} {n : String} : n ∈ m.names ↔ ∃ a, m.find? n = some a := by
  simp only [names, List.mem_map, find?_eq_some]
  constructor
  · rintro ⟨e, he, rfl⟩
    exact ⟨e.2, he⟩
  · rintro ⟨a, ha⟩
    exact ⟨_, ha, rfl⟩

theorem ext_find? {m m' : NameMap α} (h : ∀ n, m.find? n = m'.find? n) : m = m' := by
  have hmem : ∀ e, e ∈ m.entries ↔ e ∈ m'.entries := fun e => by
    rw [← find?_eq_some, ← find?_eq_some, h]
  have hperm : m.entries.Perm m'.entries :=
    (List.perm_ext_iff_of_nodup (List.Nodup.of_map _ m.nodup_names)
    (List.Nodup.of_map _ m'.nodup_names)).mpr hmem
  have heq : m.entries = m'.entries := by
    refine hperm.eq_of_pairwise (fun a b _ _ hab hba => ?_) m.sorted m'.sorted
    exact absurd (String.lt_trans hab hba) (String.lt_irrefl _)
  cases m
  cases m'
  cases heq
  rfl

private theorem find?_foldl_of_nodup (entries : List (String × α)) (m : NameMap α) (n : String) :
    (entries.map (·.1)).Nodup → (entries.foldl (fun m e => m.insert e.1 e.2) m).find? n
      = ((entries.find? (·.1 = n)).map (·.2)).or (m.find? n) := by
  induction entries generalizing m with
  | nil => exact fun _ => rfl
  | cons e entries ih =>
    intro hn
    obtain ⟨he, hn⟩ := List.nodup_cons.mp hn
    rw [List.foldl_cons, ih _ hn, find?_insert]
    by_cases h : e.1 = n
    · have hnone : entries.find? (·.1 = n) = none := by
        refine List.find?_eq_none.mpr fun e' he' hn' => he ?_
        have hn' : e'.1 = n := by simpa using hn'
        exact List.mem_map.mpr ⟨e', he', hn'.trans h.symm⟩
      simp [h, hnone]
    · simp [h]

theorem mem_of_find?_ofList {entries : List (String × α)} {n : String} {a : α}
    (h : (ofList entries).find? n = some a) :
    (n, a) ∈ entries := by
  have hfold : ∀ (entries : List (String × α)) (m : NameMap α),
      (entries.foldl (fun m e => m.insert e.1 e.2) m).find? n = some a → (n, a) ∈ entries ∨
        m.find? n = some a := by
    intro entries
    induction entries with
    | nil => exact fun m h => .inr h
    | cons e entries ih =>
      intro m h
      rcases ih _ h with h | h
      · exact .inl (List.mem_cons_of_mem _ h)
      · rw [find?_insert] at h
        split at h
        · next he =>
          cases h
          exact .inl (he ▸ List.mem_cons_self)
        · exact .inr h
  rcases hfold entries empty h with h | h
  · exact h
  · cases h

theorem find?_ofList {entries : List (String × α)} (hn : (entries.map (·.1)).Nodup) {n : String} {a : α} :
    (ofList entries).find? n = some a ↔ (n, a) ∈ entries := by
  rw [ofList, find?_foldl_of_nodup entries _ n hn, find?_empty, Option.or_none]
  exact find?_entries hn

theorem names_ofList {entries : List (String × α)} (hn : (entries.map (·.1)).Nodup) :
    (ofList entries).names.Perm (entries.map (·.1)) := by
  apply (List.perm_ext_iff_of_nodup (nodup_names _) hn).mpr
  intro n
  simp only [mem_names, find?_ofList hn, List.mem_map]
  constructor
  · rintro ⟨a, ha⟩
    exact ⟨_, ha, rfl⟩
  · rintro ⟨e, he, rfl⟩
    exact ⟨e.2, he⟩

end BuildCache.NameMap
