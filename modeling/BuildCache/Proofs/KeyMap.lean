import Mathlib.Algebra.BigOperators.Group.List.Basic
import Mathlib.Algebra.Ring.Nat
import Mathlib.Data.List.Nodup
import BuildCache.KeyMap

/-! # Finite maps from keys as lists in some order, of which the first bindings may be dropped -/
namespace BuildCache.KeyMap

variable {α β : Type} {m m' : KeyMap α} {k l : CacheKey} {a : α}

/-- No key is bound twice. -/
def Once (m : KeyMap α) : Prop := (m.map (·.1)).Nodup

theorem find?_eq_none : m.find? k = none ↔ k ∉ m.map (·.1) := by
  rw [find?, Option.map_eq_none_iff, List.find?_eq_none]
  refine ⟨fun h hmem => ?_, fun h e he hk => h ?_⟩
  · obtain ⟨e, he, hk⟩ := List.mem_map.mp hmem
    exact h e he (by simpa using hk)
  · exact List.mem_map.mpr ⟨e, he, by simpa using hk⟩

theorem Once.cons_iff {e : CacheKey × α} : Once (e :: m) ↔ m.find? e.1 = none ∧ m.Once := by
  rw [Once, List.map_cons, List.nodup_cons, find?_eq_none]
  rfl

theorem mem_of_find? (h : m.find? k = some a) : (k, a) ∈ m := by
  obtain ⟨e, he, rfl⟩ := Option.map_eq_some_iff.mp h
  have hk : e.1 = k := by simpa using List.find?_some he
  exact hk ▸ List.mem_of_find?_eq_some he

theorem Once.find?_eq_some (h : m.Once) : m.find? k = some a ↔ (k, a) ∈ m := by
  refine ⟨mem_of_find?, fun hmem => ?_⟩
  induction m with
  | nil => cases hmem
  | cons e rest ih =>
    obtain ⟨hnone, hrest⟩ := Once.cons_iff.mp h
    rw [find?_cons]
    rcases List.mem_cons.mp hmem with rfl | hmem
    · rw [if_pos rfl]
    · have hfind := ih hrest hmem
      have hne : e.1 ≠ k := fun he => by
        rw [he, hfind] at hnone
        cases hnone
      rw [if_neg hne, hfind]

/-- In the front part of a map are the keys that are found in the whole and not in the rest. -/
theorem Once.mem_front (h : Once (m ++ m')) :
    k ∈ m.map (·.1) ↔ KeyMap.find? (m ++ m') k ≠ none ∧ m'.find? k = none := by
  rw [Once, List.map_append] at h
  rw [ne_eq, find?_eq_none, find?_eq_none, not_not, List.map_append, List.mem_append]
  constructor
  · intro hk
    exact ⟨.inl hk, fun hk' => (List.disjoint_of_nodup_append h) hk hk'⟩
  · rintro ⟨hk | hk, hnot⟩
    · exact hk
    · exact absurd hk hnot

theorem Once.perm (h : m.Once) (hp : m'.Perm m) : m'.Once := (hp.map _).nodup_iff.mpr h

theorem Once.find?_perm (h : m.Once) (hp : m'.Perm m) (k : CacheKey) : m'.find? k = m.find? k := by
  apply Option.ext
  intro a
  rw [h.find?_eq_some, (h.perm hp).find?_eq_some, hp.mem_iff]

theorem Once.perm_of_find? (h' : m'.Once) (h : m.Once) (hfind : ∀ k, m'.find? k = m.find? k) : m'.Perm m := by
  apply (List.perm_ext_iff_of_nodup h'.of_map h.of_map).mpr
  rintro ⟨k, a⟩
  rw [← h'.find?_eq_some, ← h.find?_eq_some, hfind]

theorem Once.erase (h : m.Once) (k : CacheKey) : (m.erase k).Once := h.sublist (List.filter_sublist.map _)

theorem erase_eq_self (h : m.find? k = none) : m.erase k = m := by
  apply List.filter_eq_self.mpr
  intro e he
  rw [find?, Option.map_eq_none_iff, List.find?_eq_none] at h
  simpa using h e he

theorem erase_perm (hp : m'.Perm m) (k : CacheKey) : (m'.erase k).Perm (m.erase k) := hp.filter _

theorem Once.perm_cons_erase (h : m.Once) (hk : m.find? k = some a) : m.Perm ((k, a) :: m.erase k) := by
  induction m with
  | nil => cases hk
  | cons e rest ih =>
    obtain ⟨hnone, hrest⟩ := Once.cons_iff.mp h
    rw [find?_cons] at hk
    rw [erase_cons]
    split at hk
    · next he =>
      cases hk
      subst he
      rw [if_pos rfl, erase_eq_self hnone]
    · next he =>
      rw [if_neg he]
      exact ((ih hrest hk).cons e).trans (.swap _ _ _)

theorem Once.append_singleton (h : m.Once) (hk : m.find? k = none) (a : α) : Once (m ++ [(k, a)]) :=
  (Once.cons_iff.mpr ⟨hk, h⟩ : Once ((k, a) :: m)).perm (List.perm_append_singleton _ _)

@[simp] theorem find?_append_singleton (m : KeyMap α) (k l : CacheKey) (a : α) :
    KeyMap.find? (m ++ [(k, a)]) l = (m.find? l).or (if k = l then some a else none) := by
  induction m with
  | nil => rw [List.nil_append, find?_cons]; rfl
  | cons e rest ih =>
    rw [List.cons_append, find?_cons, find?_cons, ih]
    split <;> rfl

theorem find?_promote (hk : m.find? k = some a) (l : CacheKey) :
    KeyMap.find? (m.erase k ++ [(k, a)]) l = m.find? l := by
  rw [find?_append_singleton, find?_erase]
  split
  · next he => rw [← he, hk, Option.none_or]
  · rw [Option.or_none]

theorem foldl_erase (keys : List CacheKey) (m : KeyMap α) :
    keys.foldl KeyMap.erase m = m.filter fun e => !keys.contains e.1 := by
  induction keys generalizing m with
  | nil => simp
  | cons k keys ih =>
    rw [List.foldl_cons, ih, erase, List.filter_filter]
    apply List.filter_congr
    intro e _
    by_cases he : e.1 = k <;> simp [he]

def mapValues (f : α → β) (m : KeyMap α) : KeyMap β := m.map fun e => (e.1, f e.2)

theorem keys_mapValues (f : α → β) (m : KeyMap α) : (m.mapValues f).map (·.1) = m.map (·.1) := by
  simp [mapValues, Function.comp_def]

theorem find?_mapValues (f : α → β) (m : KeyMap α) (k : CacheKey) : (m.mapValues f).find? k =
    (m.find? k).map f := by
  induction m with
  | nil => rfl
  | cons e rest ih =>
    rw [mapValues, List.map_cons, find?_cons, find?_cons, ← mapValues, ih]
    split <;> rfl

@[simp] theorem mapValues_id (m : KeyMap α) : m.mapValues id = m := List.map_id m

theorem erase_mapValues (f : α → β) (m : KeyMap α) (k : CacheKey) :
    (m.mapValues f).erase k = (m.erase k).mapValues f := by
  simp [erase, mapValues, List.filter_map, Function.comp_def]

theorem mapValues_append (f : α → β) (m m' : KeyMap α) :
    mapValues f (m ++ m') = m.mapValues f ++ m'.mapValues f := List.map_append

theorem mapValues_append_singleton (f : α → β) (m : KeyMap α) (k : CacheKey) (a : α) :
    mapValues f (m ++ [(k, a)]) = m.mapValues f ++ [(k, f a)] := List.map_append

/-- Values by key that give a map once they are mapped are a map themselves, in the same order. -/
theorem Once.exists_mapValues_eq {f : α → β} {m : KeyMap β} (h : m.Once) {held : CacheKey → Option α}
    (hheld : ∀ k, m.find? k = (held k).map f) :
    ∃ values : KeyMap α, values.mapValues f = m ∧ ∀ k, values.find? k = held k := by
  let values : KeyMap α := m.filterMap fun e => (held e.1).map (e.1, ·)
  have hvalues : values.mapValues f = m := by
    rw [mapValues, List.map_filterMap]
    conv_rhs => rw [← List.filterMap_some (l := m)]
    refine List.filterMap_congr fun e he => ?_
    have hfind := hheld e.1
    rw [h.find?_eq_some.mpr he] at hfind
    obtain ⟨a, ha, hfa⟩ := Option.map_eq_some_iff.mp hfind.symm
    rw [ha, Option.map_some, Option.map_some, hfa]
  have honce : values.Once := by
    rw [Once, ← keys_mapValues f, hvalues]
    exact h
  refine ⟨values, hvalues, fun k => Option.ext fun a => ?_⟩
  rw [honce.find?_eq_some, List.mem_filterMap]
  constructor
  · rintro ⟨e, -, he⟩
    obtain ⟨a', ha', he⟩ := Option.map_eq_some_iff.mp he
    cases he
    exact ha'
  · intro ha
    have hk := hheld k
    rw [ha, Option.map_some] at hk
    exact ⟨_, h.find?_eq_some.mp hk, by rw [ha, Option.map_some]⟩

def weight (weigh : α → Nat) (m : KeyMap α) : Nat := (m.map fun e => weigh e.2).sum

variable {weigh : α → Nat}

theorem weight_cons (weigh : α → Nat) (e : CacheKey × α) (m : KeyMap α) : weight weigh
    (e :: m) = weigh e.2 + weight weigh m := by
  simp [weight]

theorem weight_append (m m' : KeyMap α) : weight weigh (m ++ m') = weight weigh m + weight weigh m' := by
  simp [weight]

theorem weight_perm (hp : m'.Perm m) : weight weigh m' = weight weigh m := (hp.map _).sum_eq

theorem Once.weight_erase (h : m.Once) (hk : m.find? k = some a) (weigh : α → Nat) :
    weight weigh m = weigh a + weight weigh (m.erase k) := by
  rw [weight_perm (h.perm_cons_erase hk), weight_cons]

theorem weight_mapValues (f : α → β) (weigh : β → Nat) (m : KeyMap α) :
    weight weigh (m.mapValues f) = weight (fun a => weigh (f a)) m := by
  simp [weight, mapValues, Function.comp_def]

/-- Drops bindings from the front, no more than are needed to bring the weight down to a limit. -/
def trim (weigh : α → Nat) (limit : Nat) : KeyMap α → KeyMap α
  | [] => []
  | e :: rest => if weight weigh (e :: rest) ≤ limit then e :: rest else trim weigh limit rest

theorem trim_eq_self {limit : Nat} (h : weight weigh m ≤ limit) : trim weigh limit m = m := by
  cases m with
  | nil => rfl
  | cons e rest => rw [trim, if_pos h]

theorem exists_trim_eq_drop (weigh : α → Nat) (limit : Nat) (m : KeyMap α) :
    ∃ n, trim weigh limit m = m.drop n ∧
    weight weigh (m.drop n) ≤ limit ∧ ∀ j, weight weigh (m.drop j) ≤ limit → n ≤ j := by
  induction m with
  | nil => exact ⟨0, rfl, Nat.zero_le _, fun _ _ => Nat.zero_le _⟩
  | cons e rest ih =>
    rw [trim]
    split
    · next hle => exact ⟨0, rfl, hle, fun _ _ => Nat.zero_le _⟩
    · next hover =>
      obtain ⟨n, htrim, hle, hleast⟩ := ih
      refine ⟨n + 1, htrim, hle, fun j hj => ?_⟩
      cases j with
      | zero => exact absurd hj hover
      | succ j => exact Nat.succ_le_succ (hleast j hj)

theorem exists_append_trim (weigh : α → Nat) (limit : Nat) (m : KeyMap α) :
    ∃ dropped, m = dropped ++ trim weigh limit m := by
  obtain ⟨n, htrim, -, -⟩ := exists_trim_eq_drop weigh limit m
  exact ⟨m.take n, by rw [htrim, List.take_append_drop]⟩

theorem trim_mapValues (f : α → β) (weigh : β → Nat) (limit : Nat) (m : KeyMap α) :
    trim weigh limit (m.mapValues f) = (trim (fun a => weigh (f a)) limit m).mapValues f := by
  induction m with
  | nil => rfl
  | cons e rest ih =>
    have hw := weight_mapValues f weigh (e :: rest)
    rw [mapValues, List.map_cons] at hw ⊢
    rw [trim, trim, hw]
    split
    · rfl
    · exact ih

/-- Drops bindings from the front down to a capacity, if there is one. -/
def fit (weigh : α → Nat) (capacity : Option Nat) (m : KeyMap α) : KeyMap α :=
  capacity.elim m fun limit => m.trim weigh limit

theorem mem_of_mem_fit {capacity : Option Nat} {e : CacheKey × α} (he : e ∈ fit weigh capacity m) : e ∈ m := by
  cases capacity with
  | none => exact he
  | some limit =>
    obtain ⟨dropped, hdropped⟩ := exists_append_trim weigh limit m
    rw [hdropped]
    exact List.mem_append_right _ he

theorem mem_fit_last {capacity : Option Nat} (h : ∀ limit, capacity = some limit → weigh a ≤ limit)
    (m : KeyMap α) (k : CacheKey) : (k, a) ∈ fit weigh capacity (m ++ [(k, a)]) := by
  cases capacity with
  | none => exact List.mem_append_right _ List.mem_cons_self
  | some limit =>
    obtain ⟨n, htrim, -, hleast⟩ := exists_trim_eq_drop weigh limit (m ++ [(k, a)])
    have halone : weight weigh ((m ++ [(k, a)]).drop m.length) ≤ limit := by
      rw [List.drop_left]
      exact h limit rfl
    show (k, a) ∈ trim weigh limit (m ++ [(k, a)])
    rw [htrim, List.drop_append_of_le_length (hleast m.length halone)]
    exact List.mem_append_right _ List.mem_cons_self

theorem Once.fit (h : m.Once) (weigh : α → Nat) (capacity : Option Nat) : (m.fit weigh capacity).Once := by
  cases capacity with
  | none => exact h
  | some limit =>
    obtain ⟨dropped, hdropped⟩ := exists_append_trim weigh limit m
    rw [hdropped] at h
    exact List.Nodup.sublist ((List.sublist_append_right _ _).map _) h

theorem fit_mapValues (f : α → β) (weigh : β → Nat) (capacity : Option Nat) (m : KeyMap α) :
    fit weigh capacity (m.mapValues f) = (fit (fun a => weigh (f a)) capacity m).mapValues f := by
  cases capacity with
  | none => rfl
  | some limit => exact trim_mapValues f weigh limit m

end BuildCache.KeyMap
