import Mathlib.Data.String.Basic
import BuildCache.Json.Parser
import BuildCache.Json.Printer

/-! # JSON that is written is read back -/
namespace BuildCache.Json

variable {b rest : List Char} {c : Char} {l : Layout} {j : Json} {fuel : Nat}

theorem skipBlank_append (hb : ∀ c ∈ b, isBlank c = true) (cs : List Char) :
    skipBlank (b ++ cs) = skipBlank cs := List.dropWhile_append_of_pos hb

theorem skipBlank_cons (hc : isBlank c = false) (cs : List Char) : skipBlank (c :: cs) = c :: cs := by
  rw [skipBlank, List.dropWhile_cons_of_neg]
  rw [hc]
  exact Bool.false_ne_true

theorem isBlank_lineBreak (l : Layout) : ∀ c ∈ l.lineBreak, isBlank c = true := by
  intro c hc
  cases l with
  | compact => cases hc
  | indented d =>
    rcases List.mem_cons.mp hc with rfl | hc
    · rfl
    · rw [List.eq_of_mem_replicate hc]
      rfl

theorem value_append (hb : ∀ c ∈ b, isBlank c = true) (cs : List Char) :
    value fuel (b ++ cs) = value fuel cs := by
  cases fuel with
  | zero => rfl
  | succ fuel => rw [value, value, skipBlank_append hb]

theorem items_append (hb : ∀ c ∈ b, isBlank c = true) (cs : List Char) :
    items fuel (b ++ cs) = items fuel cs := by
  cases fuel with
  | zero => rfl
  | succ fuel => rw [items, items, value_append hb]

theorem members_append (hb : ∀ c ∈ b, isBlank c = true) (cs : List Char) :
    members fuel (b ++ cs) = members fuel cs := by
  cases fuel with
  | zero => rfl
  | succ fuel => rw [members, members, skipBlank_append hb]

theorem isDigit_toDigits {n : Nat} : ∀ c ∈ Nat.toDigits 10 n, isDigit c = true := fun _ hc =>
  Nat.isDigit_of_mem_toDigits (by decide) (by decide) hc

theorem toDigits_eq_cons (n : Nat) : ∃ c cs, Nat.toDigits 10 n = c :: cs ∧ (c = '0' → n = 0) := by
  induction n using Nat.strong_induction_on with
  | _ n ih =>
    by_cases hn : n < 10
    · have hzero : ∀ n < 10, n.digitChar = '0' → n = 0 := by decide
      exact ⟨n.digitChar, [], Nat.toDigits_of_lt_base hn, hzero n hn⟩
    · obtain ⟨c, cs, hcs, hzero⟩ := ih (n / 10) (by omega)
      refine ⟨c, cs ++ [(n % 10).digitChar], ?_, fun hc => ?_⟩
      · rw [Nat.toDigits_of_base_le (by decide) (by omega), hcs, List.cons_append]
      · have := hzero hc
        omega

/-- No number goes on into a text. -/
def Ends (rest : List Char) : Prop :=
  ∀ c, rest.head? = some c → isDigit c = false ∧ c ≠ '.' ∧ c ≠ 'e' ∧ c ≠ 'E'

theorem Ends.digits (h : Ends rest) {ds : List Char} (hds : ∀ c ∈ ds, isDigit c = true) (hne : ds ≠ []) :
    digits (ds ++ rest) = some (ds, rest) := by
  have htake : rest.takeWhile isDigit = [] ∧ rest.dropWhile isDigit = rest := by
    cases rest with
    | nil => exact ⟨rfl, rfl⟩
    | cons c rest =>
      have hc := (h c rfl).1
      simp [hc]
  rw [Json.digits, List.takeWhile_append_of_pos hds, List.dropWhile_append_of_pos hds, htake.1, htake.2,
    List.append_nil]
  cases ds with
  | nil => exact absurd rfl hne
  | cons => rfl

theorem Ends.wholePart (h : Ends rest) (n : Nat) :
    wholePart (Nat.toDigits 10 n ++ rest) = some (n, rest) := by
  obtain ⟨c, cs, hcs, hzero⟩ := toDigits_eq_cons n
  have hdigits := h.digits (isDigit_toDigits (n := n)) (by rw [hcs]; exact List.cons_ne_nil _ _)
  rw [hcs, List.cons_append] at hdigits ⊢
  unfold Json.wholePart
  split
  · next hc =>
    cases hc
    obtain rfl := hzero rfl
    obtain rfl : [] = cs := (List.cons.inj hcs).2
    rfl
  · rw [hdigits, Option.map_some, ← hcs]
    exact congrArg (fun n => some (n, rest)) Nat.ofDigitChars_ten_toDigits

theorem Ends.fractionPart (h : Ends rest) : fractionPart rest = some (none, rest) := by
  unfold Json.fractionPart
  split
  · exact absurd rfl (h '.' rfl).2.1
  · rfl

theorem Ends.exponentPart (h : Ends rest) : exponentPart rest = some (none, rest) := by
  cases rest with
  | nil => rfl
  | cons c rest =>
    obtain ⟨-, -, he, hE⟩ := h c rfl
    unfold Json.exponentPart
    exact if_neg (not_or.mpr ⟨he, hE⟩)

theorem Ends.numeral (h : Ends rest) (n : Nat) :
    numeral (Nat.toDigits 10 n ++ rest) = some (⟨false, n, none, none⟩, rest) := by
  have hunsigned : unsigned false (Nat.toDigits 10 n ++ rest) = some (⟨false, n, none, none⟩, rest) := by
    simp only [unsigned, h.wholePart, h.fractionPart, h.exponentPart, Option.bind_eq_bind, Option.bind_some,
      Option.pure_def]
  obtain ⟨c, cs, hcs, -⟩ := toDigits_eq_cons n
  have hc := isDigit_toDigits (n := n) c (by rw [hcs]; exact List.mem_cons_self)
  rw [hcs, List.cons_append] at hunsigned ⊢
  unfold Json.numeral
  split
  · next h =>
    cases h
    exact absurd hc (by decide)
  · exact hunsigned

theorem isBlank_digit (hc : isDigit c = true) : isBlank c = false := by
  by_contra hb
  simp only [isBlank, Bool.not_eq_false, Bool.or_eq_true, decide_eq_true_eq] at hb
  rcases hb with ((rfl | rfl) | rfl) | rfl <;> cases hc

theorem value_digit (hc : isDigit c = true) (cs : List Char) :
    value (fuel + 1) (c :: cs) = (numeral (c :: cs)).map fun (n, rest) => (.number n, rest) := by
  rw [value, skipBlank_cons (isBlank_digit hc)]
  split
  all_goals
    first
    | rfl
    | next h =>
      cases h
      cases hc

private theorem unitPiece?_control : ∀ n < 0x20,
    unitEscape n = ['\\', 'u', '0', '0', (n / 16).digitChar, (n % 16).digitChar] ∧
      unitPiece? '0' '0' (n / 16).digitChar (n % 16).digitChar = some (.char (Char.ofNat n)) := by
  decide

theorem literal_escape (c : Char) (cs : List Char) :
    literal (escape c ++ cs) = (literal cs).map fun (ps, rest) => (.char c :: ps, rest) := by
  unfold escape
  split
  case h_8 hquote hslash _ _ _ _ _ =>
    split
    · next hcontrol =>
      obtain ⟨hcode, hpiece⟩ := unitPiece?_control c.toNat hcontrol
      rw [Char.ofNat_toNat] at hpiece
      simp only [hcode, List.cons_append, List.nil_append, literal, hpiece]
      cases literal cs <;> rfl
    · next hprintable =>
      have hplain : ¬(c.toNat < 0x20 ∨ c = '\\') := not_or.mpr ⟨hprintable, hslash⟩
      rw [List.cons_append, List.nil_append, literal, if_neg hplain]
      · cases literal cs <;> rfl
      · exact hquote
      · exact fun _ _ _ _ _ hc => absurd hc hslash
      · exact fun _ _ hc => absurd hc hslash
  all_goals
    rw [List.cons_append, List.cons_append, List.nil_append, literal]
    · cases literal cs <;> rfl
    · rintro _ _ _ _ _ hc
      cases hc

theorem literal_writePieces (s : String) (rest : List Char) :
    ∃ cs, writePieces (pieces s) ++ rest = '"' :: cs ∧ literal cs = some (pieces s, rest) := by
  refine ⟨_, rfl, ?_⟩
  show literal (List.flatMap _ (pieces s) ++ ['"'] ++ rest) = _
  rw [List.append_assoc, List.singleton_append, pieces]
  induction s.toList with
  | nil => rfl
  | cons c cs ih =>
    rw [List.map_cons, List.flatMap_cons, List.append_assoc, literal_escape, ih]
    rfl

/-- Items behind the first one, each on its own line if the layout breaks lines. -/
def further (l : Layout) (texts : List (List Char)) : List Char :=
  texts.flatMap fun text => ',' :: l.lineBreak ++ text

theorem bracket_append (l : Layout) (opening closing : Char) (first : List Char)
    (texts : List (List Char)) (rest : List Char) :
    bracket l opening closing (first :: texts) ++ rest = opening ::
      (l.deeper.lineBreak ++ (first ++ (further l.deeper texts ++ (l.lineBreak ++ closing :: rest)))) := by
  simp [bracket, further]

theorem length_lt_bracket (l : Layout) (opening closing : Char) (first : List Char)
    (texts : List (List Char)) :
    (first ++ further l.deeper texts).length + 1 < (bracket l opening closing (first :: texts)).length := by
  simp only [bracket, further, List.length_append, List.length_cons]
  omega

theorem further_cons (l : Layout) (text : List Char) (texts : List (List Char)) :
    further l (text :: texts) = ',' :: (l.lineBreak ++ (text ++ further l texts)) := by
  simp [further]

theorem ends_closing (l : Layout) (hc : c = ']' ∨ c = '}') (rest : List Char) :
    Ends (l.lineBreak ++ c :: rest) := by
  intro d hd
  cases l with
  | compact =>
    cases hd
    rcases hc with rfl | rfl <;> decide
  | indented depth =>
    cases hd
    decide

theorem ends_further {after : List Char} (h : Ends after) (l : Layout) (texts : List (List Char)) :
    Ends (further l texts ++ after) := by
  cases texts with
  | nil => exact h
  | cons text texts =>
    intro d hd
    rw [further_cons] at hd
    cases hd
    decide

/-- What is written of a value is read as that value. -/
def Reads (l : Layout) (j : Json) : Prop := ∀ fuel rest, (write l j).length ≤ fuel → Ends rest →
  value fuel (write l j ++ rest) = some (j, rest)

theorem items_last {cs after : List Char} {v : Json} (h : value fuel cs = some (v, after))
    (hafter : skipBlank after = ']' :: rest) : items (fuel + 1) cs = some ([v], rest) := by
  simp only [items, h, Option.bind_eq_bind, Option.bind_some, hafter, Option.pure_def]

theorem items_comma {cs after : List Char} {v : Json} (h : value fuel cs = some (v, ',' :: after)) :
    items (fuel + 1) cs = (items fuel after).map fun (vs, rest) => (v :: vs, rest) := by
  have hcomma : skipBlank (',' :: after) = ',' :: after := skipBlank_cons (by decide) after
  simp only [items, h, Option.bind_eq_bind, Option.bind_some, hcomma, Option.pure_def]
  cases items fuel after <;> rfl

theorem writeItems_eq (l : Layout) (vs : List Json) : writeItems l vs = vs.map (write l) := by
  induction vs with
  | nil => rfl
  | cons v vs ih => rw [writeItems, ih, List.map_cons]

theorem items_further {v : Json} {vs : List Json} (h : ∀ u ∈ v :: vs, Reads l u) (outer : Layout)
    (rest : List Char) (hfuel : (write l v ++ further l (vs.map (write l))).length < fuel) :
    items fuel (write l v ++ (further l (vs.map (write l)) ++ (outer.lineBreak ++ ']' :: rest)))
      = some (v :: vs, rest) := by
  induction vs generalizing v fuel with
  | nil =>
    obtain ⟨fuel, rfl⟩ : ∃ n, fuel = n + 1 := ⟨fuel - 1, by omega⟩
    rw [List.length_append] at hfuel
    have hv := h v List.mem_cons_self fuel _ (by omega) (ends_closing outer (.inl rfl) rest)
    exact items_last hv (skipBlank_append (isBlank_lineBreak outer) _)
  | cons u vs ih =>
    obtain ⟨fuel, rfl⟩ : ∃ n, fuel = n + 1 := ⟨fuel - 1, by omega⟩
    simp only [List.map_cons, further_cons, List.length_append, List.length_cons] at hfuel
    have hv := h v List.mem_cons_self fuel _ (by omega)
      (ends_further (ends_closing outer (.inl rfl) rest) l ((u :: vs).map (write l)))
    simp only [List.map_cons, further_cons, List.cons_append, List.append_assoc] at hv ⊢
    rw [items_comma hv, items_append (isBlank_lineBreak l),
      ih (fun w hw => h w (List.mem_cons_of_mem _ hw)) (by rw [List.length_append]; omega)]
    rfl

def writeMember (l : Layout) (m : String × Json) : List Char :=
  writePieces (pieces m.1) ++ l.colon ++ write l m.2

def spell (m : String × Json) : List Piece × Json := (pieces m.1, m.2)

theorem writeMembers_eq (l : Layout) (ms : List (String × Json)) :
    writeMembers l (ms.map spell) = ms.map (writeMember l) := by
  induction ms with
  | nil => rfl
  | cons m ms ih =>
    rw [List.map_cons, List.map_cons, ← ih]
    rfl

theorem Reads.member {m : String × Json} (h : Reads l m.2) (hfuel : (write l m.2).length ≤ fuel)
    (hrest : Ends rest) : ∃ cs after, writeMember l m ++ rest = '"' :: cs ∧
      literal cs = some (pieces m.1, ':' :: after) ∧ value fuel after = some (m.2, rest) := by
  obtain ⟨cs, hcs, hliteral⟩ := literal_writePieces m.1 (l.colon ++ (write l m.2 ++ rest))
  have hvalue := h fuel rest hfuel hrest
  have htext : writeMember l m ++ rest = '"' :: cs := by
    rw [writeMember, List.append_assoc, List.append_assoc, hcs]
  cases l with
  | compact => exact ⟨cs, _, htext, hliteral, hvalue⟩
  | indented depth =>
    have hblank : ∀ c ∈ [' '], isBlank c = true := List.forall_mem_singleton.mpr rfl
    exact ⟨cs, _, htext, hliteral, (value_append hblank _).trans hvalue⟩

theorem members_last {cs after behind : List Char} {name : List Piece} {v : Json}
    (hname : literal cs = some (name, ':' :: after)) (h : value fuel after = some (v, behind))
    (hbehind : skipBlank behind = '}' :: rest) : members (fuel + 1) ('"' :: cs) = some ([(name, v)], rest) := by
  have hquote : skipBlank ('"' :: cs) = '"' :: cs := skipBlank_cons (by decide) cs
  have hcolon : skipBlank (':' :: after) = ':' :: after := skipBlank_cons (by decide) after
  simp only [members, hquote, hname, hcolon, h, Option.bind_eq_bind, Option.bind_some, hbehind, Option.pure_def]

theorem members_comma {cs after behind : List Char} {name : List Piece} {v : Json}
    (hname : literal cs = some (name, ':' :: after)) (h : value fuel after = some (v, ',' :: behind)) :
    members (fuel + 1) ('"' :: cs)
      = (members fuel behind).map fun (ms, rest) => ((name, v) :: ms, rest) := by
  have hquote : skipBlank ('"' :: cs) = '"' :: cs := skipBlank_cons (by decide) cs
  have hcolon : skipBlank (':' :: after) = ':' :: after := skipBlank_cons (by decide) after
  have hcomma : skipBlank (',' :: behind) = ',' :: behind := skipBlank_cons (by decide) behind
  simp only [members, hquote, hname, hcolon, h, Option.bind_eq_bind, Option.bind_some, hcomma,
    Option.pure_def]
  cases members fuel behind <;> rfl

theorem members_further {m : String × Json} {ms : List (String × Json)}
    (h : ∀ e ∈ m :: ms, Reads l e.2) (outer : Layout) (rest : List Char)
    (hfuel : (writeMember l m ++ further l (ms.map (writeMember l))).length < fuel) :
    members fuel (writeMember l m ++ (further l (ms.map (writeMember l)) ++ (outer.lineBreak ++ '}' :: rest)))
      = some ((m :: ms).map spell, rest) := by
  have hlength : ∀ m, (write l m.2).length ≤ (writeMember l m).length := fun m => by
    rw [writeMember, List.length_append]
    exact Nat.le_add_left _ _
  have hm := hlength m
  induction ms generalizing m fuel with
  | nil =>
    obtain ⟨fuel, rfl⟩ : ∃ n, fuel = n + 1 := ⟨fuel - 1, by omega⟩
    rw [List.length_append] at hfuel
    have hshort : (write l m.2).length ≤ fuel := by omega
    obtain ⟨cs, after, htext, hname, hv⟩ := (h m List.mem_cons_self).member hshort
      (ends_closing outer (.inr rfl) rest)
    rw [List.map_nil, further, List.flatMap_nil, List.nil_append, htext]
    exact members_last hname hv (skipBlank_append (isBlank_lineBreak outer) _)
  | cons n ms ih =>
    obtain ⟨fuel, rfl⟩ : ∃ n, fuel = n + 1 := ⟨fuel - 1, by omega⟩
    simp only [List.map_cons, further_cons, List.length_append, List.length_cons] at hfuel
    have hshort : (write l m.2).length ≤ fuel := by omega
    obtain ⟨cs, after, htext, hname, hv⟩ := (h m List.mem_cons_self).member hshort
      (ends_further (ends_closing outer (.inr rfl) rest) l ((n :: ms).map (writeMember l)))
    rw [htext]
    simp only [List.map_cons, further_cons, List.cons_append, List.append_assoc] at hv
    rw [members_comma hname hv, members_append (isBlank_lineBreak l),
      ih (fun e he => h e (List.mem_cons_of_mem _ he)) (by rw [List.length_append]; omega) (hlength n)]
    rfl

/-- Documents of texts, natural numbers, arrays and objects. -/
inductive Plain : Json → Prop
  | ofText (s : String) : Plain (.ofText s)
  | ofNat (n : Nat) : Plain (.ofNat n)
  | array {vs : List Json} (h : ∀ v ∈ vs, Plain v) : Plain (.array vs)
  | ofMembers {ms : List (String × Json)} (h : ∀ m ∈ ms, Plain m.2) : Plain (.ofMembers ms)

theorem write_ofNat (l : Layout) (n : Nat) : write l (.ofNat n) = Nat.toDigits 10 n := by
  simp [write, Json.ofNat, writeNumeral]

theorem Plain.write_eq_cons (h : Plain j) (l : Layout) :
    ∃ c cs, write l j = c :: cs ∧ isBlank c = false ∧ c ≠ ']' := by
  cases h with
  | ofText s => exact ⟨'"', _, rfl, by decide, by decide⟩
  | ofNat n =>
    obtain ⟨c, cs, hcs, -⟩ := toDigits_eq_cons n
    have hc := isDigit_toDigits (n := n) c (by rw [hcs]; exact List.mem_cons_self)
    refine ⟨c, cs, (write_ofNat l n).trans hcs, isBlank_digit hc, ?_⟩
    rintro rfl
    cases hc
  | @array vs _ =>
    refine ⟨'[', ?_⟩
    cases vs with
    | nil => exact ⟨_, rfl, by decide, by decide⟩
    | cons v vs => exact ⟨_, rfl, by decide, by decide⟩
  | @ofMembers ms _ =>
    refine ⟨'{', ?_⟩
    cases ms with
    | nil => exact ⟨_, rfl, by decide, by decide⟩
    | cons m ms => exact ⟨_, rfl, by decide, by decide⟩

theorem value_items {cs more : List Char} (h : skipBlank cs = c :: more) (hc : c ≠ ']') :
    value (fuel + 1) ('[' :: cs) = (items fuel (c :: more)).map fun (vs, rest) => (.array vs, rest) := by
  have hopening : skipBlank ('[' :: cs) = '[' :: cs := skipBlank_cons (by decide) cs
  simp only [value, hopening, h]
  split
  · next he =>
    cases he
    exact absurd rfl hc
  · rfl

theorem value_members {cs more : List Char} (h : skipBlank cs = '"' :: more) :
    value (fuel + 1) ('{' :: cs) = (members fuel ('"' :: more)).map fun (ms, rest) => (.object ms, rest) := by
  have hopening : skipBlank ('{' :: cs) = '{' :: cs := skipBlank_cons (by decide) cs
  simp only [value, hopening, h]
  rfl

theorem Plain.reads_of_succ (hj : Plain j) (h : ∀ fuel rest, (write l j).length ≤ fuel + 1 → Ends rest →
    value (fuel + 1) (write l j ++ rest) = some (j, rest)) : Reads l j := by
  intro fuel rest hfuel hrest
  obtain ⟨c, cs, hcs, -⟩ := hj.write_eq_cons l
  have hlength := congrArg List.length hcs
  rw [List.length_cons] at hlength
  obtain ⟨fuel, rfl⟩ : ∃ n, fuel = n + 1 := ⟨fuel - 1, by omega⟩
  exact h fuel rest hfuel hrest

private theorem reads_ofText (s : String) (l : Layout) : Reads l (.ofText s) := by
  refine Plain.reads_of_succ (.ofText s) fun fuel rest _ _ => ?_
  obtain ⟨cs, hcs, hliteral⟩ := literal_writePieces s rest
  have hquote : skipBlank ('"' :: cs) = '"' :: cs := skipBlank_cons (by decide) cs
  rw [Json.ofText, write, hcs]
  simp only [value, hquote, hliteral, Option.map_some]

private theorem reads_ofNat (n : Nat) (l : Layout) : Reads l (.ofNat n) := by
  refine Plain.reads_of_succ (.ofNat n) fun fuel rest _ hrest => ?_
  obtain ⟨c, cs, hcs, -⟩ := toDigits_eq_cons n
  have hc := isDigit_toDigits (n := n) c (by rw [hcs]; exact List.mem_cons_self)
  have hnumeral := hrest.numeral n
  rw [hcs, List.cons_append] at hnumeral
  rw [write_ofNat, hcs, List.cons_append, value_digit hc, hnumeral]
  rfl

private theorem reads_array {vs : List Json} (h : ∀ v ∈ vs, Plain v) (hreads : ∀ v ∈ vs, ∀ l, Reads l v)
    (l : Layout) : Reads l (.array vs) := by
  refine Plain.reads_of_succ (.array h) fun fuel rest hfuel _ => ?_
  rw [write, writeItems_eq] at hfuel ⊢
  cases vs with
  | nil => simp [bracket, value, skipBlank, isBlank]
  | cons v vs =>
    have hlength := length_lt_bracket l '[' ']' (write l.deeper v) (vs.map (write l.deeper))
    have hshort : (write l.deeper v ++ further l.deeper (vs.map (write l.deeper))).length < fuel := by
      rw [List.map_cons] at hfuel
      omega
    have hitems := items_further (fun u hu => hreads u hu l.deeper) l rest hshort
    obtain ⟨c, cs, hcs, hblank, hc⟩ := (h v List.mem_cons_self).write_eq_cons l.deeper
    rw [hcs, List.cons_append] at hitems
    rw [List.map_cons, bracket_append, hcs, List.cons_append, value_items _ hc, hitems]
    · rfl
    · rw [skipBlank_append (isBlank_lineBreak _), skipBlank_cons hblank]

private theorem reads_ofMembers {ms : List (String × Json)} (h : ∀ m ∈ ms, Plain m.2)
    (hreads : ∀ m ∈ ms, ∀ l, Reads l m.2) (l : Layout) : Reads l (.ofMembers ms) := by
  refine Plain.reads_of_succ (.ofMembers h) fun fuel rest hfuel _ => ?_
  have hwrite : write l (.ofMembers ms) = bracket l '{' '}' (ms.map (writeMember l.deeper)) := by
    rw [← writeMembers_eq]
    rfl
  rw [hwrite] at hfuel ⊢
  cases ms with
  | nil => simp [bracket, value, skipBlank, isBlank, Json.ofMembers]
  | cons m ms =>
    have hlength := length_lt_bracket l '{' '}' (writeMember l.deeper m) (ms.map (writeMember l.deeper))
    have hshort : (writeMember l.deeper m ++ further l.deeper (ms.map (writeMember l.deeper))).length < fuel := by
      rw [List.map_cons] at hfuel
      omega
    have hmembers := members_further (fun e he => hreads e he l.deeper) l rest hshort
    obtain ⟨cs, hcs⟩ : ∃ cs, writeMember l.deeper m = '"' :: cs := ⟨_, rfl⟩
    rw [hcs, List.cons_append] at hmembers
    rw [List.map_cons, bracket_append, hcs, List.cons_append, value_members, hmembers]
    · rfl
    · rw [skipBlank_append (isBlank_lineBreak _), skipBlank_cons (by decide)]

theorem Plain.reads (h : Plain j) (l : Layout) : Reads l j := by
  induction h generalizing l with
  | ofText s => exact reads_ofText s l
  | ofNat n => exact reads_ofNat n l
  | array h ih => exact reads_array h ih l
  | ofMembers h ih => exact reads_ofMembers h ih l

theorem Plain.parse?_write (h : Plain j) (l : Layout) : parse? (String.ofList (write l j)) = some j := by
  have hread := h.reads l (2 * (write l j).length + 2) [] (by omega) (by intro c hc; cases hc)
  rw [List.append_nil] at hread
  rw [parse?, String.toList_ofList, hread]
  rfl

end BuildCache.Json
