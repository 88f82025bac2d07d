import BuildCache.Proofs.Store.Deletion
import BuildCache.Proofs.Store.Joint

/-! # Which entries a store has under its control when others place artifact files in its directory -/
namespace BuildCache

namespace Recency

variable {r : Recency} {k : CacheKey} {n : Nat}

theorem Tracked.toList_insert (h : r.Tracked) (k : CacheKey) (n : Nat) :
    ∃ others, (r.insert k n).toList = others ++ [(k, n)] := by
  obtain ⟨m, hm⟩ := h
  exact ⟨m.erase k, (hm.insert k n).toList_eq⟩

theorem Tracked.toList_touch (h : r.Tracked) (hk : KeyMap.find? r.toList k = some n) :
    ∃ others, (r.touch k).toList = others ++ [(k, n)] := by
  obtain ⟨m, hm⟩ := h
  rw [hm.toList_eq] at hk
  exact ⟨m.erase k, (hm.touch_of_some hk).toList_eq⟩

end Recency

namespace Store

variable {s t : Store} {temp : Path} {k : CacheKey} {a : Artifact} {c : Call} {phase : Phase} {live : List CacheKey}

/-- A call tells that there is an entry for a key: it found the artifact, or stored it. -/
def confirms (k : CacheKey) : Call × Answer → Bool
  | (.get l, .found (.ok (some _))) => l = k
  | (.put l _, .done (.ok ())) => l = k
  | _ => false

def Call.puts (k : CacheKey) : Call → Bool
  | put l _ => l = k
  | _ => false

/-- An entry was used last. Its size is the length of its file, if the key is not misjudged. When later,
between two calls, what is not live is collected, its file is deleted unless it was before, or something else
is in the place of an artifact file, or a lookup of the key broke down and has left it pinned. -/
structure Controls (x : Joint) (k : CacheKey) : Prop where
  last : ∃ others n content, x.store.recency.toList = others ++ [(k, n)] ∧ x.store.file? k = some content ∧
    (n = content.length ∨ k ∈ x.misjudged)
  collected : ∀ events live y, events.foldl Joint.move x = y → y.running = none → k ∉ live →
    (∀ before, before <+: events → (before.foldl Joint.move x).store.file? k ≠ none) →
      (∃ t n, y.store.gc live = (t, .ok n) ∧ t.file? k = none) ∨ (∃ l, Blocked y.store.root y.store.disk l) ∨
        k ∈ y.stranded

/-- A put comes upon a file that is not tracked. -/
def Joint.Overlooks (x : Joint) (k : CacheKey) : Prop :=
  x.running.any (·.1.puts k) = true ∧ x.store.file? k ≠ none ∧ x.store.tracked? k = none

instance (x : Joint) (k : CacheKey) : Decidable (x.Overlooks k) := inferInstanceAs (Decidable (_ ∧ _ ∧ _))

/-- A collection deletes the file of every entry that is neither live nor pinned, if no path of one is taken by
something else. -/
theorem collects (hd : s.disk.refusals = []) (htracked : s.recency.Tracked) (hk : s.tracked? k ≠ none)
    (hpinned : s.recency.isPinned k = false) (hlive : k ∉ live) :
    (∃ t n, s.gc live = (t, .ok n) ∧ t.file? k = none) ∨ ∃ l, Blocked s.root s.disk l := by
  have hdoomed : k ∈ s.doomed live := by
    obtain ⟨n, hn⟩ := Option.ne_none_iff_exists'.mp hk
    refine List.mem_filter.mpr ⟨List.mem_map_of_mem (f := (·.1)) (KeyMap.mem_of_find? hn), ?_⟩
    simp [hlive, hpinned]
  have hn := nodup_doomed htracked live
  rcases hgc : s.gc live with ⟨t, e | n⟩
  · obtain ⟨before, l, after, -, -, hdeletes⟩ := sweep_error hn hgc
    exact .inr ⟨l, (hdeletes.stuck hd).1 l List.mem_cons_self⟩
  · obtain ⟨ht, hdeletes⟩ := sweep_ok hn hgc
    refine .inl ⟨t, n, rfl, ?_⟩
    have hroot : t.root = s.root := by rw [ht]; rfl
    have hcleared : s.pathOf k ∈ (s.doomed live).map (artifactPath s.root) := List.mem_map_of_mem hdoomed
    rw [file?, pathOf_congr hroot, Tree.content?, hdeletes.nodes, if_pos hcleared]

def Last (s : Store) (k : CacheKey) : Prop := ∃ others n, s.recency.toList = others ++ [(k, n)]

theorem last_touch (h : s.recency.Tracked) (hk : s.tracked? k ≠ none) (ht : t.recency = s.recency.touch k) :
    Last t k := by
  obtain ⟨n, hn⟩ := Option.ne_none_iff_exists'.mp hk
  obtain ⟨others, hlast⟩ := h.toList_touch hn
  exact ⟨others, n, by rw [ht, hlast]⟩

theorem last_settle (h : s.recency.Tracked) (a : Artifact) (n : Nat) : Last (s.settle k (.found a n)).1 k := by
  have h := h.unpin k
  simp only [settle]
  split
  · next hk =>
    rw [h.contains_eq] at hk
    have htracked : KeyMap.find? (s.recency.unpin k).toList k ≠ none := Option.isSome_iff_ne_none.mp hk
    exact last_touch (s := { s with recency := s.recency.unpin k }) h htracked rfl
  · obtain ⟨others, hlast⟩ := h.toList_insert k n
    exact ⟨others, n, hlast⟩

theorem publish_ok (hcap : s.capacity = none) (hr : Phase.Ready s (.publish a temp))
    (h : s.publish a temp = (t, .ok ())) :
    (s.file? a.key ≠ none ∧ t.recency = s.recency.touch a.key) ∨
      s.file? a.key = none ∧ t.recency = s.recency.insert a.key a.encode.length ∧ t.file? a.key = some a.encode := by
  simp only [publish] at h
  split at h
  · next hhas =>
    cases h
    rw [has_eq_isSome] at hhas
    exact .inl ⟨Option.isSome_iff_ne_none.mp hhas, rfl⟩
  · next hhas =>
    rw [has_eq_isSome, Option.not_isSome_iff_eq_none] at hhas
    split at h
    · cases h
    · next d hd =>
      have hkept := evict_of_unlimited (s := { s with
        disk := d
        recency := s.recency.insert a.key a.encode.length
        counters.puts := s.counters.puts + 1 }) hcap
      rw [hkept] at h
      cases h
      refine .inr ⟨hhas, rfl, ?_⟩
      exact (Tree.content?_rename (Disk.change_eq_ok hd) (artifactPath_ne_nil _ _) hr.1 _).trans (if_pos rfl)

theorem Phase.confirms {r : Answer} (hf : phase.Fits c s) (h : (phase.step s).2 = .inl r)
    (hc : confirms k (c, r) = true) :
    (∃ a n, phase = .settle k (.found a n) ∧ c = .get k) ∨
      c.puts k = true ∧ (phase = .touch k ∨ ∃ a temp, phase = .publish a temp ∧ a.key = k ∧
        (s.publish a temp).2 = .ok ()) := by
  cases phase with
  | pin l | read l => cases h
  | settle l reading =>
    obtain ⟨rfl, -⟩ := hf
    cases h
    cases reading with
    | found a n =>
      obtain rfl : l = k := of_decide_eq_true hc
      exact .inl ⟨a, n, rfl, rfl⟩
    | _ => cases hc
  | check l a =>
    obtain rfl : c = .put l a := hf
    simp only [step] at h
    split at h
    · cases h
      cases hc
    · cases h
  | touch l =>
    obtain ⟨⟨a, rfl⟩, -⟩ := hf
    cases h
    obtain rfl : l = k := of_decide_eq_true hc
    exact .inr ⟨hc, .inl rfl⟩
  | makeShard a | writeTemp a =>
    obtain rfl : c = .put a.key a := hf
    simp only [step] at h
    split at h
    · cases h
      cases hc
    · cases h
  | publish a temp =>
    obtain rfl : c = .put a.key a := hf
    obtain rfl : .done (s.publish a temp).2 = r := Sum.inl.inj h
    cases hr : (s.publish a temp).2 with
    | error e =>
      rw [hr] at hc
      cases hc
    | ok _ =>
      rw [hr] at hc
      exact .inr ⟨hc, .inr ⟨a, temp, rfl, of_decide_eq_true hc, hr⟩⟩
  | remove l | gc live =>
    obtain rfl := hf
    cases hc

namespace Joint

variable {x : Joint}

theorem Guarded.confirms (h : Guarded x) (he : x.answer?.any (confirms k) = true) :
    (x.move .step).store.file? k ≠ none ∧
      (Last (x.move .step).store k ∧ ¬x.Overlooks k ∨
        (x.move .step).store.recency = x.store.recency.touch k ∧
          (x.move .step).store.file? k = x.store.file? k ∧ x.running.any (·.1.puts k) = true) := by
  obtain ⟨⟨c, r⟩, he, hc⟩ := (Option.any_eq_true ..).mp he
  obtain ⟨⟨c', phase⟩, hrun, hlast⟩ := Option.bind_eq_some_iff.mp he
  obtain ⟨r', hleft, hpair⟩ := Option.map_eq_some_iff.mp hlast
  cases hpair
  rw [Sum.getLeft?_eq_some_iff] at hleft
  obtain ⟨hfits, hready⟩ := h.fits c phase hrun
  have hsame : ∀ content, x.store.file? k = some content → ¬phase.Clears x.store k →
      (phase.step x.store).1.file? k = some content := fun content => ((h.effect hrun).turns k).file_eq
  simp only [Joint.move, hrun, review, hleft]
  rcases Phase.confirms hfits hleft hc with ⟨a, n, rfl, rfl⟩ | ⟨hput, rfl | ⟨a, temp, rfl, rfl, hok⟩⟩
  · obtain ⟨content, hf⟩ := Option.ne_none_iff_exists'.mp (hfits.2 a n rfl)
    have hf' := hsame content hf not_false
    refine ⟨fun hnone => ?_, .inl ⟨last_settle h.sane.tracked a n, ?_⟩⟩
    · cases hf'.symm.trans hnone
    · rintro ⟨hput, -⟩
      rw [hrun] at hput
      cases hput
  · exact ⟨hfits.2, .inr ⟨rfl, rfl, hput⟩⟩
  · rcases publish_ok h.sane.capacity hready (Prod.ext rfl hok) with ⟨hf, hrecency⟩ | ⟨hnone, hrecency, hf'⟩
    · obtain ⟨content, hcontent⟩ := Option.ne_none_iff_exists'.mp hf
      have hf' := (hsame content hcontent not_false).trans hcontent.symm
      exact ⟨fun hgone => hf (hf'.symm.trans hgone), .inr ⟨hrecency, hf', hput⟩⟩
    · obtain ⟨others, hlast⟩ := h.sane.tracked.toList_insert a.key a.encode.length
      refine ⟨fun hgone => ?_, .inl ⟨⟨others, _, (congrArg Recency.toList hrecency).trans hlast⟩, fun hover => ?_⟩⟩
      · cases hf'.symm.trans hgone
      · exact hover.2.1 hnone

theorem Guarded.controls (h : Guarded x) (hlast : Last x.store k) (hf : x.store.file? k ≠ none) : Controls x k := by
  obtain ⟨others, n, hlist⟩ := hlast
  obtain ⟨content, hcontent⟩ := Option.ne_none_iff_exists'.mp hf
  have htracked : x.store.tracked? k = some n := by
    obtain ⟨m, hm⟩ := h.sane.tracked
    have honce : KeyMap.Once x.store.recency.toList := hm.toList_eq ▸ Recency.Lists.once hm
    exact honce.find?_eq_some.mpr (hlist ▸ List.mem_append_right _ List.mem_cons_self)
  refine ⟨⟨others, n, content, hlist, hcontent, ?_⟩, fun events live y hy hrun hlive hstays => ?_⟩
  · by_cases hn : n = content.length
    · exact .inl hn
    · refine .inr (h.judged k (wrong_eq_true.mpr ⟨n, mem_sizes.mpr (.inl htracked), fun hlength => hn ?_⟩))
      rw [length?, hcontent] at hlength
      exact (Option.some.inj hlength).symm
  · subst hy
    have hend := h.run events
    have hkept := h.tracked_run (by rw [htracked]; exact Option.some_ne_none n) events hstays
    by_cases hstranded : k ∈ (events.foldl Joint.move x).stranded
    · exact .inr (.inr hstranded)
    · refine (collects hend.sane.refusals hend.sane.tracked hkept ?_ hlive).imp_right .inl
      exact hend.isPinned_eq hrun hstranded

theorem misjudged_run {events : List Event} (h : k ∈ (events.foldl Joint.move x).misjudged) :
    k ∈ x.misjudged ∨ ∃ content, .place k content ∈ events := by
  induction events generalizing x with
  | nil => exact .inl h
  | cons e events ih =>
    rcases ih h with hmove | ⟨content, hplace⟩
    · rcases misjudged_move hmove with hk | ⟨content, rfl⟩
      · exact .inl hk
      · exact .inr ⟨content, List.mem_cons_self⟩
    · exact .inr ⟨content, List.mem_cons_of_mem e hplace⟩

theorem Guarded.stranded_move {e : Event} (h : Guarded x) (hk : k ∈ (x.move e).stranded) : k ∈ x.stranded ∨
    e = .step ∧ ∃ c, x.answer? = some (.get k, .found (.crashed c)) := by
  cases e with
  | begin | save =>
    simp only [Joint.move] at hk
    split at hk <;> exact .inl hk
  | place => exact .inl hk
  | step =>
    cases hrun : x.running with
    | none =>
      rw [Joint.move, hrun] at hk
      exact .inl hk
    | some call =>
      obtain ⟨c, phase⟩ := call
      simp only [Joint.move, hrun, review, List.mem_append, Option.mem_toList] at hk
      refine hk.symm.imp_right fun hcrash => ⟨rfl, ?_⟩
      have hfits := (h.fits c phase hrun).1
      cases phase with
      | settle l reading =>
        cases reading with
        | crashed crash =>
          obtain rfl : l = k := Option.some.inj hcrash
          refine ⟨crash, ?_⟩
          rw [answer?, hrun, hfits.1]
          rfl
        | _ => cases hcrash
      | _ => cases hcrash

theorem stranded_run {events : List Event} (hs : Unlimited s) (hk : k ∈ (run s events).stranded) :
    ∃ before c, before ++ [.step] <+: events ∧ (run s before).answer? = some (.get k, .found (.crashed c)) := by
  induction events using List.reverseRecOn with
  | nil => cases hk
  | append_singleton events e ih =>
    have hguarded : Guarded (run s events) := (Guarded.start hs).run events
    rw [run, List.foldl_append] at hk
    rcases hguarded.stranded_move hk with hbefore | ⟨rfl, c, hanswer⟩
    · obtain ⟨before, c, hprefix, hanswer⟩ := ih hbefore
      exact ⟨before, c, hprefix.trans (List.prefix_append _ _), hanswer⟩
    · exact ⟨events, c, List.prefix_refl _, hanswer⟩

/-- What a call has just confirmed is under the control of the store, whatever others placed meanwhile. The
exception is a put that comes upon a file which is not tracked: it leaves it so. The size is that of the file
but for keys that were wrong from the start or that others have placed files of. A key is left pinned only by a
lookup of it that broke down. -/
theorem takes_control (hs : Unlimited s) (events : List Event)
    (hc : (run s events).answer?.any (confirms k) = true) :
    (¬(run s events).Overlooks k → Controls ((run s events).move .step) k) ∧
      ((run s events).Overlooks k → ((run s events).move .step).store.tracked? k = none ∧
        ((run s events).move .step).store.file? k = (run s events).store.file? k) ∧
      (k ∈ ((run s events).move .step).misjudged → k ∈ (start s).misjudged ∨ ∃ content, .place k content ∈ events) ∧
      ∀ all, k ∈ (run s all).stranded → ∃ before c, before ++ [.step] <+: all ∧
        (run s before).answer? = some (.get k, .found (.crashed c)) := by
  have hguarded : Guarded (run s events) := (Guarded.start hs).run events
  obtain ⟨hf, hcases⟩ := hguarded.confirms hc
  refine ⟨fun hnot => hguarded.step.controls ?_ hf, fun hover => ?_, fun hk => ?_, fun all => stranded_run hs⟩
  · rcases hcases with ⟨hlast, -⟩ | ⟨hrecency, hsame, hput⟩
    · exact hlast
    · exact last_touch hguarded.sane.tracked 
        (fun hnone => hnot ⟨hput, fun hgone => hf (hsame.trans hgone), hnone⟩) hrecency
  · obtain ⟨hrecency, hsame, -⟩ := hcases.resolve_left fun h => h.2 hover
    refine ⟨?_, hsame⟩
    have htouch := (hguarded.sane.tracked.touch k).2 k
    rw [tracked?, hrecency]
    exact htouch.trans hover.2.2
  · rcases misjudged_move hk with hbefore | ⟨content, he⟩
    · exact misjudged_run hbefore
    · cases he

end Joint

theorem unlimited_stocked (content : Bytes) : Unlimited (stocked content) :=
  ⟨rfl, rfl, (consistent_stocked content).listed, Path.straight_resolve ["cache"]⟩

/-- A lookup is about to end with what others placed. -/
def adopting : List Event := [.place (sample 2).key (sample 2).encode, .begin (.get (sample 2).key), .step, .step]

theorem takes_control_adopting : Unlimited (stocked (sample 1).encode) ∧
    ((Joint.run (stocked (sample 1).encode) adopting).answer?.any (confirms (sample 2).key) = true ∧
      ¬(Joint.run (stocked (sample 1).encode) adopting).Overlooks (sample 2).key) ∧
    Controls ((Joint.run (stocked (sample 1).encode) adopting).move .step) (sample 2).key ∧
    ((Joint.run (stocked (sample 1).encode) adopting).move .step).misjudged = [] := by
  have hc : (Joint.run (stocked (sample 1).encode) adopting).answer?.any (confirms (sample 2).key) = true := by
    decide +kernel
  have hnot : ¬(Joint.run (stocked (sample 1).encode) adopting).Overlooks (sample 2).key := by decide +kernel
  exact ⟨unlimited_stocked _, ⟨hc, hnot⟩, (Joint.takes_control (unlimited_stocked _) adopting hc).1 hnot,
    by decide +kernel⟩

/-- A put is about to end after it came upon what others placed. -/
def overlooking : Joint := .run (stocked (sample 1).encode)
  [.place (sample 2).key (sample 2).encode, .begin (.put (sample 2).key (sample 2)), .step]

/-- A lookup is about to end with a longer file, which others put in the place of that of an entry. -/
def outgrown : Joint := .run (stocked (sample 1).encode)
  [.place (sample 1).key { sample 1 with data := [1, 1] }.encode, .begin (.get (sample 1).key), .step, .step]

/-- A put confirms a file that the store does not track then, and that no collection deletes. A lookup
confirms one that is tracked with the size of another. -/
theorem confirms_without_control :
    (overlooking.answer?.any (confirms (sample 2).key) = true ∧
      (overlooking.move .step).store.tracked? (sample 2).key = none ∧
      ((overlooking.move .step).store.gc []).2.isOk = true ∧
      ((overlooking.move .step).store.gc []).1.file? (sample 2).key = some (sample 2).encode) ∧
    outgrown.answer?.any (confirms (sample 1).key) = true ∧
      (outgrown.move .step).store.tracked? (sample 1).key = some 114 ∧
      (outgrown.move .step).store.length? (sample 1).key = some 115 := by
  decide +kernel

end Store
end BuildCache
