import ScriptSession.Analysis.Highlight
import ScriptSession.Proofs.ExportName
import ScriptSession.Proofs.Offers
import ScriptSession.Proofs.Outline

namespace ScriptSession

namespace Outline

/-- A path as it is written: identifiers with a dot between neighbours. -/
inductive IsRun : List Lexeme → Prop
  | single {t : Lexeme} : t.token = .ident → IsRun [t]
  | dotted {t d : Lexeme} {run : List Lexeme} :
      t.token = .ident → d.token = .dot → IsRun run → IsRun (t :: d :: run)

/-- Whether a path that is still open stands at the end. -/
def EndsOpen (ts : List Lexeme) : Prop :=
  ∃ (front : List Lexeme) (t d : Lexeme), ts = front ++ [t, d] ∧ t.token = .ident ∧
    d.token = .dot

/-- Whether a path before would go on here. -/
def GoesOn (ts : List Lexeme) : Prop :=
  ∃ (d t : Lexeme) (rest : List Lexeme), ts = d :: t :: rest ∧ d.token = .dot ∧ t.token = .ident

/-- A path that cannot be made longer between what stands before it and after it. -/
structure MaximalRun (before run after : List Lexeme) : Prop where
  isRun : IsRun run
  before : ¬ EndsOpen before
  after : ¬ GoesOn after

variable {t : Lexeme} {ts run before after : List Lexeme}

theorem EndsOpen.append (h : EndsOpen ts) (front : List Lexeme) : EndsOpen (front ++ ts) := by
  obtain ⟨open_, t, d, rfl, ht, hd⟩ := h
  exact ⟨front ++ open_, t, d, (List.append_assoc ..).symm, ht, hd⟩

theorem IsRun.exists_cons (h : IsRun run) : ∃ t rest, run = t :: rest ∧ t.token = .ident := by
  cases h with
  | single ht => exact ⟨_, _, rfl, ht⟩
  | dotted ht _ _ => exact ⟨_, _, rfl, ht⟩

theorem IsRun.maximal (h : IsRun run) (hbefore : ∀ d ∈ before.getLast?, d.token ≠ .dot)
    (hafter : ∀ d ∈ after.head?, d.token ≠ .dot) : MaximalRun before run after := by
  refine ⟨h, ?_, ?_⟩
  · rintro ⟨front, t, d, rfl, -, hd⟩
    exact hbefore d (by simp) hd
  · rintro ⟨d, t, rest, rfl, hd, -⟩
    exact hafter d rfl hd

theorem IsRun.right {left right : List Lexeme} (h : IsRun (left ++ t :: right))
    (ht : t.token = .ident) : right = [] ∨ GoesOn right := by
  generalize hrun : left ++ t :: right = run at h
  induction h generalizing left with
  | @single u hu =>
    cases left with
    | nil =>
      cases hrun
      exact .inl rfl
    | cons v left => cases left <;> cases hrun
  | @dotted u d run hu hd hnext ih =>
    cases left with
    | nil =>
      cases hrun
      obtain ⟨n, rest, rfl, hn⟩ := hnext.exists_cons
      exact .inr ⟨d, n, rest, rfl, hd, hn⟩
    | cons v left =>
      cases left with
      | nil =>
        cases hrun
        rw [hd] at ht
        cases ht
      | cons w left =>
        cases hrun
        exact ih rfl

theorem pathRun_of_isRun (h : IsRun run) (hafter : ¬ GoesOn after) :
    pathRun (run ++ after) = run := by
  induction h with
  | single ht =>
    apply pathRun_single ht
    intro d n rest hts hd hn
    exact hafter ⟨d, n, rest, hts, hd, hn⟩
  | @dotted t d run ht hd hnext ih =>
    obtain ⟨n, rest, rfl, hn⟩ := hnext.exists_cons
    rw [List.cons_append, List.cons_append, List.cons_append, pathRun_dotted ht hd hn]
    exact congrArg (t :: d :: ·) ih

theorem pathRun_maximal (ht : t.token = .ident) (ts : List Lexeme) :
    ∃ after, t :: ts = pathRun (t :: ts) ++ after ∧ IsRun (pathRun (t :: ts)) ∧ ¬ GoesOn after := by
  generalize hall : t :: ts = all
  induction all using pathRun_induction generalizing t ts with
  | none all h =>
    subst hall
    exact absurd h (pathRun_ne_nil ht)
  | single u us hu h =>
    refine ⟨us, by rw [h]; rfl, by rw [h]; exact .single hu, ?_⟩
    rintro ⟨d, n, rest, rfl, hd, hn⟩
    rw [pathRun_dotted hu hd hn] at h
    cases h
  | dotted u d n rest hu hd hn ih =>
    obtain ⟨after, hsplit, hrun, hafter⟩ := ih hn rest rfl
    rw [pathRun_dotted hu hd hn]
    exact ⟨after, congrArg (u :: d :: ·) hsplit, .dotted hu hd hrun, hafter⟩

/-- A maximal run starts where another one starts or after its end. -/
theorem IsRun.le_before {rest more : List Lexeme} (h : IsRun run) (ht : t.token = .ident)
    (hsplit : run ++ rest = before ++ t :: more) (hbefore : ¬ EndsOpen before) :
    before = [] ∨ ∃ before', before = run ++ before' := by
  induction h generalizing before with
  | single hu =>
    cases before with
    | nil => exact .inl rfl
    | cons v before =>
      cases hsplit
      exact .inr ⟨before, rfl⟩
  | @dotted u d run hu hd hnext ih =>
    cases before with
    | nil => exact .inl rfl
    | cons v before =>
      cases before with
      | nil =>
        cases hsplit
        rw [hd] at ht
        cases ht
      | cons w before =>
        obtain ⟨rfl, htail⟩ := List.cons.inj hsplit
        obtain ⟨rfl, hrest⟩ := List.cons.inj htail
        obtain rfl | ⟨before', rfl⟩ := ih hrest fun hopen => hbefore (hopen.append [u, d])
        · exact absurd ⟨[], u, d, rfl, hu, hd⟩ hbefore
        · exact .inr ⟨before', rfl⟩

theorem exists_maximalRun (ht : t.token = .ident) (before after : List Lexeme) :
    ∃ front left right back, before = front ++ left ∧ after = right ++ back ∧
      MaximalRun front (left ++ t :: right) back := by
  induction h : before.length using Nat.strongRecOn generalizing t before after with
  | ind n ih =>
    by_cases hopen : EndsOpen before
    · obtain ⟨front, i, d, rfl, hi, hd⟩ := hopen
      obtain ⟨front', left, right, back, rfl, hafter, hmax⟩ :=
        ih front.length (by rw [← h, List.length_append]; simp) hi front (d :: t :: after) rfl
      obtain rfl | ⟨d', t', right, rfl, -, -⟩ := hmax.isRun.right hi
      · exact absurd ⟨d, t, after, hafter.symm, hd, ht⟩ hmax.after
      · cases hafter
        refine ⟨front', left ++ [i, d], right, back, (List.append_assoc ..), rfl, ?_⟩
        rw [List.append_assoc]
        exact hmax
    · obtain ⟨back, hsplit, hrun, hback⟩ := pathRun_maximal ht after
      obtain ⟨right, hright⟩ := exists_pathRun ht after
      rw [hright] at hsplit hrun
      exact ⟨before, [], right, back, (List.append_nil _).symm, (List.cons.inj hsplit).2,
        hrun, hopen, hback⟩

/-- Where an identifier stands at the front of what comes before a maximal run, the first run of the
text ends before that one. -/
theorem MaximalRun.first (h : MaximalRun (t :: before) run after) (ht : t.token = .ident) :
    ∃ first before', first ≠ [] ∧ t :: before = first ++ before' ∧ IsRun first ∧
      ¬ GoesOn (before' ++ (run ++ after)) ∧ MaximalRun before' run after := by
  obtain ⟨after', hsplit, hrun, hafter⟩ := pathRun_maximal ht (before ++ (run ++ after))
  have hne : pathRun (t :: (before ++ (run ++ after))) ≠ [] := pathRun_ne_nil ht
  generalize pathRun (t :: (before ++ (run ++ after))) = first at hsplit hrun hne
  obtain ⟨u, rest, rfl, hu⟩ := h.isRun.exists_cons
  obtain hnil | ⟨before', hbefore⟩ := hrun.le_before hu hsplit.symm h.before
  · cases hnil
  · have hmax : MaximalRun before' (u :: rest) after :=
      ⟨h.isRun, fun hopen => h.before (hbefore ▸ hopen.append first), h.after⟩
    rw [← List.cons_append, hbefore, List.append_assoc] at hsplit
    rw [← List.append_cancel_left hsplit] at hafter
    exact ⟨first, before', hne, hbefore, hrun, hafter, hmax⟩

end Outline

namespace ModuleTable

variable {modules : ModuleTable}

/-- Whether a name is that of a module or of a namespace above one. -/
def Names (modules : ModuleTable) (name : String) : Prop :=
  ∃ m ∈ modules.toList, m.name = name ∨ (name ++ ".").toList <+: m.name.toList

theorem isNamespace_iff {name : String} : modules.isNamespace name = true ↔ modules.Names name := by
  have hname (m : Module) : isWithin name m.name = true ↔
      m.name = name ∨ (name ++ ".").toList <+: m.name.toList := by
    rw [isWithin_iff, String.toList_inj, String.toList_append]
    refine or_congr_right ⟨?_, ?_⟩
    · rintro ⟨rest, hrest⟩
      exact ⟨rest, by rw [hrest, List.append_assoc]; rfl⟩
    · rintro ⟨rest, hrest⟩
      exact ⟨rest, by rw [← hrest, List.append_assoc]; rfl⟩
  rw [isNamespace, List.any_eq_true, Names]
  simp only [hname]

theorem Names.of_concat {segments : List String} (hne : segments ≠ []) {key : String}
    (h : modules.Names (dotted (segments ++ [key]))) : modules.Names (dotted segments) := by
  have htext : dotted (segments ++ [key]) = dotted segments ++ "." ++ key := dotted_concat hne key
  obtain ⟨m, hm, hname⟩ := h
  refine ⟨m, hm, .inr ?_⟩
  rw [htext] at hname
  have hlonger : (dotted segments ++ ".").toList <+: (dotted segments ++ "." ++ key).toList := by
    rw [String.toList_append (s := dotted segments ++ ".")]
    exact List.prefix_append _ _
  obtain heq | hpre := hname
  · rwa [heq]
  · rw [String.toList_append] at hpre
    exact hlonger.trans ((List.prefix_append _ _).trans hpre)

theorem Names.take {segments : List String} {m n : Nat} (hmn : m ≤ n)
    (h : modules.Names (dotted (segments.take (n + 1)))) :
    modules.Names (dotted (segments.take (m + 1))) := by
  induction n, hmn using Nat.le_induction with
  | base => exact h
  | succ n hmn ih =>
    apply ih
    rw [List.take_add_one] at h
    cases hkey : segments[n + 1]? with
    | none => rwa [hkey, Option.toList_none, List.append_nil] at h
    | some key =>
      rw [hkey, Option.toList_some] at h
      apply h.of_concat
      rintro hnil
      rw [List.take_eq_nil_iff.1 hnil |>.resolve_left (Nat.succ_ne_zero n)] at hkey
      cases hkey

end ModuleTable

namespace Highlight

variable {modules : ModuleTable}

/-- The greatest of the first numbers with a property that smaller ones have as well. -/
theorem lt_longest_iff {p : Nat → Bool}
    (hp : ∀ {m n : Nat}, m ≤ n → p (n + 1) = true → p (m + 1) = true) (count : Nat) :
    let longest := ((List.range count).map (· + 1)).foldl
      (fun longest n => if p n = true then n else longest) 0
    longest ≤ count ∧ ∀ n < count, (n < longest ↔ p (n + 1) = true) := by
  induction count with
  | zero => exact ⟨Nat.le_refl 0, nofun⟩
  | succ count ih =>
    simp only [List.range_succ, List.map_append, List.foldl_append, List.map_cons, List.map_nil,
      List.foldl_cons, List.foldl_nil]
    obtain ⟨hle, hiff⟩ := ih
    split
    next hlast =>
      refine ⟨Nat.le_refl _, fun n hn => ⟨fun _ => hp (Nat.le_of_lt_succ hn) hlast, fun _ => hn⟩⟩
    next hlast =>
      refine ⟨by omega, fun n hn => ?_⟩
      obtain rfl | hlt := Nat.eq_or_lt_of_le (Nat.le_of_lt_succ hn)
      · exact ⟨fun h => absurd h (Nat.not_lt.2 hle), fun h => absurd h hlast⟩
      · exact hiff n hlt

theorem lt_moduleSegments_iff {segments : List String} {n : Nat} (hn : n < segments.length) :
    n < moduleSegments modules segments ↔ modules.Names (dotted (segments.take (n + 1))) := by
  rw [← ModuleTable.isNamespace_iff]
  have hclosed {m n : Nat} (hmn : m ≤ n)
      (h : modules.isNamespace (dotted (segments.take (n + 1))) = true) :
      modules.isNamespace (dotted (segments.take (m + 1))) = true := by
    rw [ModuleTable.isNamespace_iff] at h ⊢
    exact h.take hmn
  have h := lt_longest_iff (p := fun n => modules.isNamespace (dotted (segments.take n))) hclosed
  exact (h segments.length).2 n hn

end Highlight

namespace Highlight

open Outline (IsRun GoesOn EndsOpen MaximalRun pathRun segments)

variable {modules : ModuleTable} {t : Lexeme} {run before after : List Lexeme}

/-- The kinds of the tokens that are no identifiers. -/
inductive HasKind : Token → HighlightKind → Prop
  | comment : HasKind .comment .comment
  | directive : HasKind .directive .directive
  | number : HasKind .int .number
  | string : HasKind .str .string
  | keyword {t : Token} : t ∈ [.kwLet, .kwUse, .kwTrue, .kwFalse] → HasKind t .keyword
  | punctuation {t : Token} : t ∈ [.lparen, .rparen, .comma, .dot, .semi] →
      HasKind t .punctuation
  | operator {t : Token} :
      t ∈ [.assign, .plus, .minus, .star, .slash, .percent, .eqEq, .notEq, .lt, .ltEq, .gt,
        .gtEq, .andAnd, .orOr, .bang] → HasKind t .operator

theorem hasKind_lexicalKind {t : Token} (h : t ≠ .ident) : HasKind t (lexicalKind t) := by
  cases t with
  | comment => exact .comment
  | directive => exact .directive
  | int => exact .number
  | str => exact .string
  | ident => exact absurd rfl h
  | kwLet | kwUse | kwTrue | kwFalse => exact .keyword (by decide)
  | lparen | rparen | comma | dot | semi => exact .punctuation (by decide)
  | assign | plus | minus | star | slash | percent | eqEq | notEq | lt | ltEq | gt | gtEq
  | andAnd | orOr | bang => exact .operator (by decide)

/-- Whether a highlighted span is that of a token, with its kind unless it is an identifier. -/
def Fits (t : Lexeme) (h : HighlightSpan) : Prop :=
  h.span = t.span ∧ (t.token ≠ .ident → HasKind t.token h.kind)

theorem fits_classifyRun (count : Nat) (ts : List Lexeme) :
    List.Forall₂ Fits ts (classifyRun count ts) := by
  induction ts generalizing count with
  | nil => exact .nil
  | cons t ts ih =>
    rw [classifyRun]
    split
    next ht => exact .cons ⟨rfl, fun h => absurd ht h⟩ (ih _)
    next => exact .cons ⟨rfl, hasKind_lexicalKind⟩ (ih _)

theorem fits_classifyPath (modules : ModuleTable) (afterUse : Bool) (run : List Lexeme) :
    List.Forall₂ Fits run (classifyPath modules afterUse run) :=
  fits_classifyRun _ run

theorem getElem?_classifyRun (ht : t.token = .ident) (count : Nat) (left right : List Lexeme) :
    (classifyRun count (left ++ t :: right))[left.length]? =
      some ⟨if (segments left).length < count then .module else .identifier, t.span⟩ := by
  induction left generalizing count with
  | nil =>
    rw [List.nil_append, classifyRun, if_pos ht]
    rfl
  | cons u left ih =>
    rw [List.cons_append, classifyRun, List.length_cons]
    split
    next hu =>
      rw [List.getElem?_cons_succ, ih]
      have hlength : (segments (u :: left)).length = (segments left).length + 1 := by
        simp [segments, hu]
      simp only [hlength, Nat.lt_sub_iff_add_lt]
    next hu =>
      rw [List.getElem?_cons_succ, ih]
      have hsegments : segments (u :: left) = segments left := by
        simp [segments, hu]
      rw [hsegments]

theorem classify_other (ht : t.token ≠ .ident) (afterUse : Bool) (rest : List Lexeme) :
    classify modules afterUse (t :: rest) =
      ⟨lexicalKind t.token, t.span⟩ :: classify modules (t.token = .kwUse) rest := by
  rw [classify, if_neg ht]

theorem classify_run (hrun : IsRun run) (hafter : ¬ GoesOn after) (afterUse : Bool) :
    classify modules afterUse (run ++ after) =
      classifyPath modules afterUse run ++ classify modules false after := by
  have hpath := Outline.pathRun_of_isRun hrun hafter
  obtain ⟨t, rest, rfl, ht⟩ := hrun.exists_cons
  rw [List.cons_append] at hpath ⊢
  rw [classify, if_pos ht]
  simp only [hpath, List.length_cons, Nat.add_sub_cancel, List.drop_left]

theorem fits_classify (afterUse : Bool) (ts : List Lexeme) :
    List.Forall₂ Fits ts (classify modules afterUse ts) := by
  induction h : ts.length using Nat.strongRecOn generalizing afterUse ts with
  | ind n ih =>
    cases ts with
    | nil =>
      rw [classify]
      exact .nil
    | cons t rest =>
      by_cases ht : t.token = .ident
      · obtain ⟨after, hsplit, hrun, hafter⟩ := Outline.pathRun_maximal ht rest
        have hlength := congrArg List.length hsplit
        rw [List.length_append, h] at hlength
        have hpos : 0 < (Outline.pathRun (t :: rest)).length :=
          List.length_pos_of_ne_nil (Outline.pathRun_ne_nil ht)
        rw [hsplit, classify_run hrun hafter]
        exact List.rel_append (fits_classifyPath _ _ _) (ih after.length (by omega) false after rfl)
      · rw [List.length_cons] at h
        rw [classify_other ht]
        exact .cons ⟨rfl, hasKind_lexicalKind⟩ (ih rest.length (by omega) _ rest rfl)

def useBefore (afterUse : Bool) (ts : List Lexeme) : Bool :=
  ts.foldl (fun _ t => t.token = .kwUse) afterUse

theorem useBefore_append (afterUse : Bool) (ts us : List Lexeme) :
    useBefore afterUse (ts ++ us) = useBefore (useBefore afterUse ts) us :=
  List.foldl_append

theorem useBefore_run (hrun : IsRun run) (afterUse : Bool) : useBefore afterUse run = false := by
  induction hrun generalizing afterUse with
  | single ht => simp [useBefore, ht]
  | dotted _ _ _ ih => exact ih _

theorem useBefore_iff (ts : List Lexeme) :
    useBefore false ts = true ↔ ∃ t ∈ ts.getLast?, t.token = .kwUse := by
  obtain rfl | ⟨front, t, rfl⟩ := List.eq_nil_or_concat ts
  · exact ⟨nofun, nofun⟩
  · simp [useBefore]

theorem classify_maximalRun (modules : ModuleTable) (h : MaximalRun before run after)
    (afterUse : Bool) :
    ∃ front, front.length = before.length ∧
      classify modules afterUse (before ++ (run ++ after)) =
        front ++ (classifyPath modules (useBefore afterUse before) run ++
          classify modules false after) := by
  obtain ⟨n, hn⟩ : ∃ n, before.length = n := ⟨_, rfl⟩
  induction n using Nat.strongRecOn generalizing afterUse before with
  | ind n ih =>
    cases before with
    | nil => exact ⟨[], rfl, classify_run h.isRun h.after afterUse⟩
    | cons t before =>
      by_cases ht : t.token = .ident
      · obtain ⟨first, before', hne, hbefore, hrun, hafter, hmax⟩ := h.first ht
        rw [hbefore] at hn ⊢
        rw [List.length_append] at hn
        have := List.length_pos_of_ne_nil hne
        obtain ⟨front, hlength, hclassify⟩ := ih before'.length (by omega) hmax false rfl
        refine ⟨classifyPath modules afterUse first ++ front, ?_, ?_⟩
        · rw [List.length_append, List.length_append, hlength,
            (fits_classifyPath modules afterUse first).length_eq]
        · rw [List.append_assoc, classify_run hrun hafter, hclassify, List.append_assoc,
            useBefore_append, useBefore_run hrun]
      · have hmax : MaximalRun before run after :=
          ⟨h.isRun, fun hopen => h.before (hopen.append [t]), h.after⟩
        rw [List.length_cons] at hn
        obtain ⟨front, hlength, hclassify⟩ :=
          ih before.length (by omega) hmax (t.token = .kwUse) rfl
        refine ⟨⟨lexicalKind t.token, t.span⟩ :: front, congrArg (· + 1) hlength, ?_⟩
        rw [List.cons_append, classify_other ht, hclassify]
        rfl

def moduleCount (modules : ModuleTable) (afterUse : Bool) (run : List Lexeme) : Nat :=
  if afterUse then (segments run).length else moduleSegments modules (segments run)

/-- An identifier of a run is part of a module name if the run comes after `use`, or if what stands
up to it is the name of a module or of a namespace above one. -/
theorem lt_moduleCount_iff {left : List Lexeme} (ht : t.token = .ident) (right : List Lexeme)
    (afterUse : Bool) :
    (segments left).length < moduleCount modules afterUse (left ++ t :: right) ↔
      afterUse = true ∨ modules.Names (dotted (segments (left ++ [t]))) := by
  have hsegments (ts : List Lexeme) :
      segments (left ++ t :: ts) = segments left ++ t.text :: segments ts := by
    simp [segments, ht]
  have hlt : (segments left).length < (segments (left ++ t :: right)).length := by
    rw [hsegments]
    simp
  cases afterUse with
  | true => simpa [moduleCount] using hlt
  | false =>
    rw [moduleCount, if_neg Bool.false_ne_true, lt_moduleSegments_iff hlt, hsegments, hsegments,
      List.take_length_add_append]
    simp [segments]

theorem kind_of_maximalRun {left right : List Lexeme}
    (h : MaximalRun before (left ++ t :: right) after) (ht : t.token = .ident) :
    ∃ kind, (classify modules false
        (before ++ (left ++ t :: right ++ after)))[(before ++ left).length]? =
          some ⟨kind, t.span⟩ ∧
      (kind = .module ∨ kind = .identifier) ∧
      (kind = .module ↔ (∃ u ∈ before.getLast?, u.token = .kwUse) ∨
        modules.Names (dotted (segments (left ++ [t])))) := by
  obtain ⟨front, hlength, hclassify⟩ := classify_maximalRun modules h false
  have hfits := fits_classifyPath modules (useBefore false before) (left ++ t :: right)
  have hkind : (classifyPath modules (useBefore false before) (left ++ t :: right))[left.length]? =
      some ⟨if (segments left).length < moduleCount modules (useBefore false before)
        (left ++ t :: right) then .module else .identifier, t.span⟩ :=
    getElem?_classifyRun ht _ left right
  rw [hclassify, List.length_append, List.getElem?_append_right (by omega), hlength,
    Nat.add_sub_cancel_left, List.getElem?_append_left (by rw [← hfits.length_eq]; simp), hkind,
    ← useBefore_iff, ← lt_moduleCount_iff ht right]
  split
  next hlt => exact ⟨.module, rfl, .inl rfl, fun _ => hlt, fun _ => rfl⟩
  next hlt => exact ⟨.identifier, rfl, .inr rfl, nofun, fun h => absurd h hlt⟩

end Highlight

/-- Highlighting gives every token one span, of the kind of its class unless it is an identifier.
Each identifier is in one run of identifiers and dots that cannot be made longer, and is highlighted
as a module exactly if that run comes right after `use` or what stands in it up to the identifier is
the name of a module or of a namespace above one. -/
theorem highlighting_classifies_every_token (d : Document) :
    let tokens := (lex d.text.toList).tokens
    List.Forall₂ Highlight.Fits tokens (highlight d) ∧
      (∀ (before : List Lexeme) (t : Lexeme) (after : List Lexeme),
        tokens = before ++ t :: after → t.token = .ident →
        ∃ front left right back, before = front ++ left ∧ after = right ++ back ∧
          Outline.MaximalRun front (left ++ t :: right) back) ∧
      ∀ (before left : List Lexeme) (t : Lexeme) (right after : List Lexeme),
        tokens = before ++ (left ++ t :: right ++ after) →
        Outline.MaximalRun before (left ++ t :: right) after → t.token = .ident →
        ∃ kind, (highlight d)[(before ++ left).length]? = some ⟨kind, t.span⟩ ∧
          (kind = .module ∨ kind = .identifier) ∧
          (kind = .module ↔ (∃ u ∈ before.getLast?, u.token = .kwUse) ∨
            d.project.modules.Names (dotted (Outline.segments (left ++ [t])))) := by
  intro tokens
  refine ⟨Highlight.fits_classify false tokens, ?_, ?_⟩
  · intro before t after _ ht
    exact Outline.exists_maximalRun ht before after
  · intro before left t right after htokens hmax ht
    rw [highlight, show (lex d.text.toList).tokens = _ from htokens]
    exact Highlight.kind_of_maximalRun hmax ht

/-- With the module `A.B` a path is a module up to its second identifier, after `use` as a whole. -/
theorem kinds_in_use_and_sum :
    let table := (ModuleTable.empty.accept ⟨⟨"A.B", "1.0"⟩, ⟨"b.dll"⟩, ∅⟩).2
    let d : Document := ⟨⟨0, .empty, ∅, table, ""⟩, [], "use C; A.B.x + 1", false⟩
    List.Forall₂ Highlight.Fits (lex d.text.toList).tokens (highlight d) ∧
      (highlight d)[1]? = some ⟨.module, ⟨4, 5⟩⟩ ∧ (highlight d)[5]? = some ⟨.module, ⟨9, 10⟩⟩ ∧
      (highlight d)[7]? = some ⟨.identifier, ⟨11, 12⟩⟩ := by
  intro table d
  obtain ⟨hfits, -, hruns⟩ := highlighting_classifies_every_token d
  have htokens : (lex d.text.toList).tokens =
      [⟨.kwUse, "use", ⟨0, 3⟩⟩, ⟨.ident, "C", ⟨4, 5⟩⟩, ⟨.semi, ";", ⟨5, 6⟩⟩,
        ⟨.ident, "A", ⟨7, 8⟩⟩, ⟨.dot, ".", ⟨8, 9⟩⟩, ⟨.ident, "B", ⟨9, 10⟩⟩, ⟨.dot, ".", ⟨10, 11⟩⟩,
        ⟨.ident, "x", ⟨11, 12⟩⟩, ⟨.plus, "+", ⟨13, 14⟩⟩, ⟨.int, "1", ⟨15, 16⟩⟩] := by
    decide +kernel
  have hall : d.project.modules.toList = [⟨⟨"A.B", "1.0"⟩, ⟨"b.dll"⟩, ∅⟩] := by rfl
  have hmodule : d.project.modules.Names "A.B" := by
    rw [ModuleTable.Names, hall]
    exact ⟨_, List.mem_singleton_self _, .inl rfl⟩
  have hexport : ¬ d.project.modules.Names "A.B.x" := by
    rw [ModuleTable.Names, hall]
    rintro ⟨m, hm, h⟩
    rw [List.mem_singleton.1 hm] at h
    revert h
    decide +kernel
  have huse : Outline.MaximalRun [⟨.kwUse, "use", ⟨0, 3⟩⟩] [⟨.ident, "C", ⟨4, 5⟩⟩]
      ((lex d.text.toList).tokens.drop 2) := by
    rw [htokens]
    exact (Outline.IsRun.single rfl).maximal (by decide) (by decide)
  have hpath : Outline.MaximalRun ((lex d.text.toList).tokens.take 3)
      [⟨.ident, "A", ⟨7, 8⟩⟩, ⟨.dot, ".", ⟨8, 9⟩⟩, ⟨.ident, "B", ⟨9, 10⟩⟩, ⟨.dot, ".", ⟨10, 11⟩⟩,
        ⟨.ident, "x", ⟨11, 12⟩⟩] ((lex d.text.toList).tokens.drop 8) := by
    rw [htokens]
    exact (Outline.IsRun.dotted rfl rfl (.dotted rfl rfl (.single rfl))).maximal (by decide)
      (by decide)
  refine ⟨hfits, ?_, ?_, ?_⟩
  · obtain ⟨kind, hkind, -, hiff⟩ := hruns _ [] _ [] _ (by rw [htokens]; rfl) huse rfl
    rw [hiff.2 (.inl ⟨_, rfl, rfl⟩)] at hkind
    exact hkind
  · obtain ⟨kind, hkind, -, hiff⟩ := hruns _ [_, _] _ [_, _] _ (by rw [htokens]; rfl) hpath rfl
    rw [hiff.2 (.inr hmodule), htokens] at hkind
    exact hkind
  · obtain ⟨kind, hkind, hkinds, hiff⟩ :=
      hruns _ [_, _, _, _] _ [] _ (by rw [htokens]; rfl) hpath rfl
    have hident : kind = .identifier := by
      refine hkinds.resolve_left fun h => ?_
      obtain ⟨u, hu, hkw⟩ | hname := hiff.1 h
      · rw [htokens] at hu
        cases hu
        cases hkw
      · exact hexport hname
    rw [hident, htokens] at hkind
    exact hkind

end ScriptSession
