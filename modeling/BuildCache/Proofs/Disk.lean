import Mathlib.Data.List.Induction
import Mathlib.Tactic.Common
import BuildCache.Disk

/-! # The file tree: what each call leaves of it, and paths without steps back -/
namespace BuildCache

namespace Path

variable {p : Path}

/-- A way on which every place is the way so far. -/
def Straight (p : Path) : Prop := ∀ q : Path, q <+: p → q.resolve = q

theorem resolve_append_singleton (p : Path) (name : String) :
    resolve (p ++ [name]) = step p.resolve name := by
  rw [resolve, List.foldl_append]
  rfl

theorem Straight.resolve_eq (h : p.Straight) : p.resolve = p := h p (List.prefix_refl p)

theorem Straight.append_singleton (h : p.Straight) {name : String} (hstep : step p name = p ++ [name]) :
    Straight (p ++ [name]) := by
  intro q hq
  rcases List.prefix_concat_iff.mp hq with rfl | hq
  · rw [resolve_append_singleton, h.resolve_eq, hstep]
  · exact h q hq

theorem step_of_ne {name : String} (hn : name ≠ "..") (p : Path) : step p name = p ++ [name] :=
  if_neg fun h => hn h.1

theorem Straight.step (h : p.Straight) (name : String) : (step p name).Straight := by
  by_cases hback : name = ".." ∧ p.getLast?.getD ".." ≠ ".."
  · rw [Path.step, if_pos hback]
    exact fun q hq => h q (hq.trans (List.dropLast_prefix p))
  · have hstep : Path.step p name = p ++ [name] := if_neg hback
    rw [hstep]
    exact h.append_singleton hstep

theorem straight_resolve (p : Path) : p.resolve.Straight := by
  induction p using List.reverseRecOn with
  | nil =>
    intro q hq
    rw [List.prefix_nil.mp hq]
    rfl
  | append_singleton p name ih =>
    rw [resolve_append_singleton]
    exact ih.step name

/-- Every place on the way to the end of a path is the end of a first part of the path. -/
theorem exists_resolve_eq {q : Path} (h : q <+: p.resolve) : ∃ taken : Path, taken <+: p ∧
    taken.resolve = q := by
  induction p using List.reverseRecOn with
  | nil => exact ⟨[], List.prefix_refl _, (List.prefix_nil.mp h).symm⟩
  | append_singleton p name ih =>
    have hearlier : q <+: resolve p → ∃ taken : Path, taken <+: p ++ [name] ∧
      taken.resolve = q := fun hq => by
      obtain ⟨taken, htaken, he⟩ := ih hq
      exact ⟨taken, htaken.trans (List.prefix_append _ _), he⟩
    rw [resolve_append_singleton, Path.step] at h
    split at h
    · exact hearlier (h.trans (List.dropLast_prefix _))
    · next hstep =>
      rcases List.prefix_concat_iff.mp h with rfl | hq
      · refine ⟨p ++ [name], List.prefix_refl _, ?_⟩
        rw [resolve_append_singleton, Path.step, if_neg hstep]
      · exact hearlier hq

end Path

namespace Tree

variable {t t' : Tree} {p q : Path}

@[simp] theorem node?_root (t : Tree) : t.node? [] = some .directory := if_pos rfl

theorem node?_eq (t : Tree) (hp : p ≠ []) : t.node? p = (t.find? (·.1 = p)).map (·.2) := if_neg hp

private theorem find?_filter (t : Tree) (p q : Path) :
    (t.filter (·.1 ≠ p)).find? (·.1 = q) = if p = q then none else t.find? (·.1 = q) := by
  rw [List.find?_filter]
  by_cases h : p = q
  · rw [if_pos h, List.find?_eq_none]
    rintro e - he
    simp only [decide_eq_true_eq, h] at he
    exact he.1 he.2
  · rw [if_neg h]
    congr 1
    funext e
    by_cases he : e.1 = q
    · simpa [he] using fun hqp : q = p => h hqp.symm
    · simp [he]

theorem node?_put (t : Tree) (hp : p ≠ []) (n : Node) (q : Path) :
    (t.put p n).node? q = if p = q then some n else t.node? q := by
  by_cases hq : q = []
  · subst hq
    rw [node?_root, node?_root, if_neg hp]
  · rw [node?_eq _ hq, node?_eq _ hq, put, List.find?_cons]
    by_cases h : p = q
    · simp [h]
    · have hd : decide (p = q) = false := decide_eq_false h
      rw [hd, if_neg h]
      have hf := find?_filter t p q
      rw [if_neg h] at hf
      exact congrArg (Option.map (·.2)) hf

theorem node?_erase (t : Tree) (hp : p ≠ []) (q : Path) :
    (t.erase p).node? q = if p = q then none else t.node? q := by
  by_cases hq : q = []
  · subst hq
    rw [node?_root, node?_root, if_neg hp]
  · rw [node?_eq _ hq, node?_eq _ hq, erase, find?_filter]
    by_cases h : p = q
    · simp [h]
    · simp [h]

theorem exists_node? {e : Path × Node} (he : e ∈ t) (hne : e.1 ≠ []) : ∃ n, t.node? e.1 = some n := by
  rw [node?_eq _ hne]
  cases hfind : t.find? (·.1 = e.1) with
  | none =>
    have hother := List.find?_eq_none.mp hfind e he
    exact absurd (decide_eq_true rfl) hother
  | some found => exact ⟨found.2, rfl⟩

theorem lookup_eq_ok {n : Node} : t.lookup p = .ok n ↔ t.node? p = some n := by
  simp only [lookup]
  cases t.node? p with
  | none => simp
  | some m => simp

theorem read_eq_ok {content : Bytes} : t.read p = .ok content ↔ t.node? p = some (.file content) := by
  rw [← lookup_eq_ok, read]
  cases t.lookup p with
  | error e => simp
  | ok n => cases n <;> simp

theorem write_eq_ok {content : Bytes} (h : t.write p content = .ok t') : t' = t.put p
    (.file content) := by
  simp only [write] at h
  cases hp : t.parent p with
  | error e =>
    rw [hp] at h
    cases h
  | ok _ =>
    rw [hp] at h
    simp only [bind, Except.bind] at h
    split at h
    · cases h
    · cases h
      rfl

theorem removeFile_eq_ok (h : t.removeFile p = .ok t') : t' = t.erase p := by
  simp only [removeFile] at h
  split at h
  · cases h
    rfl
  · cases h
  · cases h

theorem rename_eq_ok (h : t.rename p q = .ok t') :
    ∃ content, t.node? p = some (.file content) ∧ t' = (t.erase p).put q (.file content) := by
  simp only [rename] at h
  cases hr : t.read p with
  | error e =>
    rw [hr] at h
    cases h
  | ok content =>
    rw [hr] at h
    cases hq : t.parent q with
    | error e =>
      rw [hq] at h
      cases h
    | ok _ =>
      rw [hq] at h
      simp only [bind, Except.bind] at h
      split at h
      · cases h
      · cases h
        exact ⟨content, read_eq_ok.mp hr, rfl⟩

/-- Making directories changes no node that is there, and adds directories on the way only. -/
theorem node?_createAlong {done rest : Path} (h : t.createAlong done rest = .ok t') (q : Path) :
    t'.node? q = t.node? q ∨ t.node? q = none ∧ t'.node? q = some .directory ∧
      ∃ taken, taken ≠ [] ∧ taken.isPrefixOf rest = true ∧ q = taken.foldl Path.step done := by
  induction rest generalizing done t with
  | nil =>
    cases h
    exact .inl rfl
  | cons name rest ih =>
    have hlater : ∀ taken, taken ≠ [] ∧ taken.isPrefixOf rest = true ∧
      q = taken.foldl Path.step (Path.step done name) →
        ∃ taken, taken ≠ [] ∧ taken.isPrefixOf (name :: rest) = true ∧
          q = taken.foldl Path.step done := by
      rintro taken ⟨-, hpre, he⟩
      exact ⟨name :: taken, List.cons_ne_nil _ _, by simpa [List.isPrefixOf] using hpre, he⟩
    simp only [createAlong] at h
    split at h
    · next hnone =>
      have hne : Path.step done name ≠ [] := fun he => by
        rw [he, node?_root] at hnone
        cases hnone
      rcases ih h with hq | ⟨hq, hd, taken, htaken⟩
      · rw [node?_put _ hne] at hq
        split at hq
        · next he =>
          refine .inr ⟨he ▸ hnone, hq, [name], List.cons_ne_nil _ _, by simp [List.isPrefixOf], he.symm⟩
        · exact .inl hq
      · rw [node?_put _ hne] at hq
        split at hq
        · cases hq
        · exact .inr ⟨hq, hd, hlater taken htaken⟩
    · rcases ih h with hq | ⟨hq, hd, taken, htaken⟩
      · exact .inl hq
      · exact .inr ⟨hq, hd, hlater taken htaken⟩
    · cases h

theorem node?_createDirectories (h : t.createDirectories p = .ok t') (q : Path) :
    t'.node? q = t.node? q ∨ t.node? q = none ∧ t'.node? q = some .directory ∧
      ∃ taken : Path, taken <+: p ∧ q = Path.resolve taken := by
  refine (node?_createAlong h q).imp_right fun hnew => ?_
  obtain ⟨hnone, hdir, taken, -, hpre, he⟩ := hnew
  exact ⟨hnone, hdir, taken, List.isPrefixOf_iff_prefix.mp hpre, he⟩

theorem file_createDirectories (h : t.createDirectories p = .ok t') {content : Bytes} :
    t'.node? q = some (.file content) ↔ t.node? q = some (.file content) := by
  rcases node?_createDirectories h q with hq | ⟨hnone, hd, -⟩
  · rw [hq]
  · rw [hnone, hd]
    simp

def content? (t : Tree) (p : Path) : Option Bytes :=
  match t.node? p with
  | some (.file content) => some content
  | _ => none

theorem content?_eq_some {content : Bytes} : t.content? p = some content ↔ t.node? p = some (.file content) := by
  rw [content?]
  rcases t.node? p with _ | other | _ <;> simp

theorem content?_congr (h : t'.node? p = t.node? p) : t'.content? p = t.content? p := by
  rw [content?, content?, h]

theorem content?_rename {content : Bytes} (h : t.rename p q = .ok t') (hq : q ≠ [])
    (hp : t.content? p = some content) (r : Path) :
    t'.content? r = if q = r then some content else if p = r then none else t.content? r := by
  obtain ⟨moved, hmoved, rfl⟩ := rename_eq_ok h
  obtain rfl : content = moved := Option.some.inj (hp.symm.trans (content?_eq_some.mpr hmoved))
  have hnil : p ≠ [] := fun he => by
    rw [he, node?_root] at hmoved
    cases hmoved
  rw [content?, node?_put _ hq, node?_erase _ hnil, content?]
  by_cases hr : q = r
  · rw [if_pos hr, if_pos hr]
  · by_cases hr' : p = r
    · rw [if_neg hr, if_neg hr, if_pos hr', if_pos hr']
    · rw [if_neg hr, if_neg hr, if_neg hr', if_neg hr']

def fileLength? (t : Tree) (p : Path) : Option Nat := (t.content? p).map (·.length)

theorem fileLength?_eq_some {n : Nat} :
    t.fileLength? p = some n ↔ ∃ content, t.node? p = some (.file content) ∧ content.length = n := by
  simp only [fileLength?, Option.map_eq_some_iff, content?_eq_some]

theorem content?_createDirectories (h : t.createDirectories p = .ok t') (q : Path) :
    t'.content? q = t.content? q := by
  apply Option.ext
  intro content
  rw [content?_eq_some, content?_eq_some, file_createDirectories h]

theorem isFile_eq_false : t.isFile p = false ↔ ∀ content, t.node? p ≠ some (.file content) := by
  simp only [isFile]
  split
  · next content h => simp [h]
  · next h => exact ⟨fun _ content hc => h content hc, fun _ => rfl⟩

theorem isFile_eq_true : t.isFile p = true ↔ ∃ content, t.node? p = some (.file content) := by
  rw [← Bool.not_eq_false, isFile_eq_false]
  simp only [ne_eq, not_forall, not_not]

theorem isFile_eq_isSome (t : Tree) (p : Path) : t.isFile p = (t.content? p).isSome := by
  rw [isFile, content?]
  rcases t.node? p with _ | content | _ <;> rfl

theorem createAlong_ok (done rest : Path)
    (h : ∀ taken, taken <+: rest → taken ≠ [] → t.isFile (taken.foldl Path.step done) = false) :
    ∃ t', t.createAlong done rest = .ok t' ∧
      ∀ taken, taken <+: rest → taken ≠ [] → t'.node? (taken.foldl Path.step done) = some .directory := by
  induction rest generalizing done t with
  | nil => exact ⟨t, rfl, fun taken ht hne => absurd (List.prefix_nil.mp ht) hne⟩
  | cons name rest ih =>
    have hfirst := h [name] (List.prefix_iff_eq_take.mpr rfl) (List.cons_ne_nil _ _)
    -- what is to be shown of the way from the first place on gives what is to be shown of the whole way
    have hgo : ∀ u : Tree, u.node? (Path.step done name) = some .directory →
        (∀ taken, taken <+: rest → taken ≠ [] →
          u.isFile (taken.foldl Path.step (Path.step done name)) = false) →
        ∃ t', u.createAlong (Path.step done name) rest = .ok t' ∧
          ∀ taken, taken <+: name :: rest → taken ≠ [] →
          t'.node? (taken.foldl Path.step done) = some .directory := fun u hu hclear => by
      obtain ⟨t', ht', hdirs⟩ := ih _ hclear
      refine ⟨t', ht', fun taken hpre hne => ?_⟩
      obtain ⟨first, taken, rfl⟩ := List.exists_cons_of_ne_nil hne
      obtain ⟨rfl, hrest⟩ := List.cons_prefix_cons.mp hpre
      by_cases htaken : taken = []
      · subst htaken
        rcases node?_createAlong ht' (Path.step done first) with hq | ⟨hnone, -, -⟩
        · exact hq.trans hu
        · rw [hu] at hnone
          cases hnone
      · exact hdirs taken hrest htaken
    have hlater : ∀ taken, taken <+: rest → taken ≠ [] →
        t.isFile (taken.foldl Path.step (Path.step done name)) = false := fun taken hpre _ =>
      h (name :: taken) (List.cons_prefix_cons.mpr ⟨rfl, hpre⟩) (List.cons_ne_nil _ _)
    simp only [createAlong]
    split
    · next hnone =>
      have hne : Path.step done name ≠ [] := fun he => by
        rw [he, node?_root] at hnone
        cases hnone
      refine hgo _ (by rw [node?_put _ hne, if_pos rfl]) fun taken hpre htaken =>
        isFile_eq_false.mpr fun content => ?_
      rw [node?_put _ hne]
      split
      · intro h
        cases h
      · exact isFile_eq_false.mp (hlater taken hpre htaken) content
    · next hdir => exact hgo t hdir hlater
    · next content hfile => exact absurd hfile (isFile_eq_false.mp hfirst content)

/-- On a straight way without files, all that is missing is made, and nothing else. -/
theorem createDirectories_ok (hp : p.Straight) (h : ∀ q, q <+: p → t.isFile q = false) :
    ∃ t', t.createDirectories p = .ok t' ∧
      ∀ q, t'.node? q = if q <+: p then some .directory else t.node? q := by
  obtain ⟨t', ht', hdirs⟩ := createAlong_ok (t := t) [] p fun taken hpre _ => by
    rw [show taken.foldl Path.step [] = taken from hp taken hpre]
    exact h taken hpre
  refine ⟨t', ht', fun q => ?_⟩
  split
  · next hq =>
    by_cases hnil : q = []
    · rw [hnil, node?_root]
    · have := hdirs q hq hnil
      rwa [show q.foldl Path.step [] = q from hp q hq] at this
  · next hq =>
    rcases node?_createAlong ht' q with he | ⟨-, -, taken, -, hpre, he⟩
    · exact he
    · have hpre := List.isPrefixOf_iff_prefix.mp hpre
      rw [show taken.foldl Path.step [] = taken from hp taken hpre] at he
      exact absurd (he ▸ hpre) hq

theorem parent_ok (h : t.node? p.dropLast = some .directory) : t.parent p = .ok () := by
  rw [parent, lookup_eq_ok.mpr h]

theorem write_ok {content : Bytes} (h : t.node? p.dropLast = some .directory)
    (hp : t.node? p ≠ some .directory) :
    t.write p content = .ok (t.put p (.file content)) := by
  rw [write, parent_ok h]
  simp [isDirectory, hp, bind, Except.bind]

theorem removeFile_ok {content : Bytes} (h : t.node? p = some (.file content)) : t.removeFile p = .ok
    (t.erase p) := by
  rw [removeFile, lookup_eq_ok.mpr h]

theorem rename_ok {content : Bytes} (h : t.node? p = some (.file content))
    (hq : t.node? q.dropLast = some .directory)
    (hd : t.node? q ≠ some .directory) : t.rename p q = .ok ((t.erase p).put q (.file content)) := by
  rw [rename, read_eq_ok.mpr h, bind, Monad.toBind, Except.instMonad]
  simp [Except.bind, parent_ok hq, isDirectory, hd]

/-- A file is written under a temporary name and moved into place: it is there, and the rest is as
it was. -/
theorem write_rename_ok {temp place : Path} {content : Bytes}
    (hdir : t.node? temp.dropLast = some .directory)
    (hdir' : t.node? place.dropLast = some .directory) (htemp : t.node? temp ≠ some .directory)
    (hplace : t.node? place ≠ some .directory) :
    ∃ written moved, t.write temp content = .ok written ∧ written.rename temp place = .ok moved ∧
      (∀ q, temp ≠ q → written.node? q = t.node? q) ∧
      ∀ q, moved.node? q
        = if place = q then some (.file content) else if temp = q then none else t.node? q := by
  have hroot : ∀ {p : Path}, t.node? p ≠ some .directory → p ≠ [] := by
    rintro p hp rfl
    exact hp (node?_root t)
  let written := t.put temp (.file content)
  have hput : ∀ q, written.node? q = if temp = q then some (.file content) else t.node? q :=
    node?_put t (hroot htemp) (.file content)
  have hread : written.node? temp = some (.file content) := by rw [hput, if_pos rfl]
  have hparent : written.node? place.dropLast = some .directory := by
    rw [hput, if_neg, hdir']
    intro he
    exact htemp (he ▸ hdir')
  have hfree : written.node? place ≠ some .directory := by
    rw [hput]
    split
    · intro h
      cases h
    · exact hplace
  refine ⟨written, _, write_ok hdir htemp, rename_ok hread hparent hfree, fun q hq => ?_, fun q => ?_⟩
  · rw [hput, if_neg hq]
  · rw [node?_put _ (hroot hplace), node?_erase _ (hroot htemp), hput]
    by_cases hq : temp = q
    · rw [if_pos hq, if_pos hq]
    · rw [if_neg hq, if_neg hq, if_neg hq]

theorem lookup_notFound (h : t.node? p = none) (hway : ∀ q, q <+: p → t.isFile q = false) :
    t.lookup p = .error .notFound := by
  rw [lookup, h]
  refine congrArg _ (if_neg ?_)
  simp only [List.any_eq_true, not_exists, not_and]
  exact fun n _ hn => by rw [hway _ (List.take_prefix n p)] at hn; cases hn

end Tree

namespace Disk

variable {d : Disk}

theorem change_cases (d : Disk) (action : Tree → Except Fault Tree) :
    (∃ e, (d.change action).2 = .error e ∧ (d.change action).1.tree = d.tree) ∨
      (∃ t, action d.tree = .ok t ∧ (d.change action).2 = .ok () ∧ (d.change action).1.tree = t) := by
  simp only [change]
  split
  · exact .inl ⟨_, rfl, rfl⟩
  · split
    · next t ht => exact .inr ⟨t, ht, rfl, rfl⟩
    · exact .inl ⟨_, rfl, rfl⟩

theorem change_eq_ok {d d' : Disk} {action : Tree → Except Fault Tree}
    (h : d.change action = (d', .ok ())) :
    action d.tree = .ok d'.tree := by
  rcases d.change_cases action with ⟨e, he, -⟩ | ⟨t, ht, -, htree⟩
  · rw [h] at he
    cases he
  · rw [h] at htree
    rw [ht, ← htree]

theorem change_eq_error {d d' : Disk} {action : Tree → Except Fault Tree} {e : Fault}
    (h : d.change action = (d', .error e)) : d'.tree = d.tree := by
  rcases d.change_cases action with ⟨-, -, htree⟩ | ⟨t, -, hok, -⟩
  · rw [h] at htree
    exact htree
  · rw [h] at hok
    cases hok

theorem file_change {d : Disk} {action : Tree → Except Fault Tree} {q : Path} {content : Bytes}
    (h : ∀ t, action d.tree = .ok t → t.node? q = some (.file content) →
      d.tree.node? q = some (.file content))
    (hf : (d.change action).1.tree.node? q = some (.file content)) :
    d.tree.node? q = some (.file content) := by
  rcases d.change_cases action with ⟨e, -, htree⟩ | ⟨t, hok, -, htree⟩
  · rwa [htree] at hf
  · exact h t hok (htree ▸ hf)

theorem tree_look {α : Type} (d : Disk) (action : Tree → Except Fault α) :
    (d.look action).1.tree = d.tree := by
  simp only [look]
  split <;> rfl

theorem look_ok {α : Type} {d : Disk} {action : Tree → Except Fault α} {a : α}
    (h : (d.look action).2 = .ok a) :
    action d.tree = .ok a := by
  simp only [look] at h
  split at h
  · cases h
  · exact h

theorem look_allowed {α : Type} {d : Disk} (hd : d.refusals.head? ≠ some true) (action : Tree → Except Fault α) :
    (d.look action).2 = action d.tree := by
  simp only [look]
  split
  · next rest hrefusals => exact absurd (congrArg List.head? hrefusals) hd
  · rfl

theorem change_ok {d : Disk} {action : Tree → Except Fault Tree} {t : Tree} (hd : d.refusals = [])
    (h : action d.tree = .ok t) : d.change action = (⟨t, []⟩, .ok ()) := by
  rw [change, hd]
  simp only [h]
  rfl

theorem change_error {d : Disk} {action : Tree → Except Fault Tree} {e : Fault} (hd : d.refusals = [])
    (h : action d.tree = .error e) : d.change action = (d, .error e) := by
  obtain ⟨tree, refusals⟩ := d
  obtain rfl : refusals = [] := hd
  simp only [change, h]
  rfl

theorem refusals_change (hd : d.refusals = []) (action : Tree → Except Fault Tree) :
    (d.change action).1.refusals = [] := by
  cases h : action d.tree with
  | ok t => rw [change_ok hd h]
  | error e => rw [change_error hd h, hd]

theorem look_eq {α : Type} {d : Disk} {action : Tree → Except Fault α} (hd : d.refusals = []) :
    d.look action = (d, action d.tree) := by
  obtain ⟨tree, refusals⟩ := d
  obtain rfl : refusals = [] := hd
  rfl

end Disk
end BuildCache
