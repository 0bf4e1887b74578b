import ScriptSession.Proofs.Binding
/-!
The outline of a text against what the text parses as. Both see the same paths and names where no
comment stands inside of them; an outline does not look past comments, and loses what they part.
-/
namespace ScriptSession

def StmtKind.used? : StmtKind → Option (List String)
  | use path => some path
  | _ => none

def Script.usedPaths (script : Script) : List (List String) :=
  script.filterMap (·.kind.used?)

theorem Script.usedPaths_cons (s : Stmt) (rest : Script) :
    usedPaths (s :: rest) = s.kind.used?.toList ++ usedPaths rest := by
  rw [usedPaths, List.filterMap_cons, usedPaths]
  cases s.kind.used? <;> rfl

theorem take_significant {ts : List Lexeme} {n : Nat} (h : ∀ t ∈ ts.take n, t.token ≠ .comment) :
    (significant ts).take n = ts.take n := by
  induction ts generalizing n with
  | nil => rfl
  | cons t ts ih =>
    cases n with
    | zero => rfl
    | succ n =>
      obtain ⟨ht, hts⟩ := List.forall_mem_cons.1 h
      rw [significant_cons ht, List.take_succ_cons, List.take_succ_cons, ih hts]

theorem ahead?_significant {ts : List Lexeme} (h : ahead? ts ≠ some .comment) :
    ahead? (significant ts) = ahead? ts := by
  cases ts with
  | nil => rfl
  | cons t ts =>
    rw [significant_cons fun ht => h (congrArg some ht)]
    rfl

namespace Outline

section PathRun

variable {t d n : Lexeme} {ts rest : List Lexeme}

theorem pathRun_dotted (ht : t.token = .ident) (hd : d.token = .dot) (hn : n.token = .ident) :
    pathRun (t :: d :: n :: rest) = t :: d :: pathRun (n :: rest) := by
  rw [pathRun, if_pos ht, if_pos ⟨hd, hn⟩]

theorem pathRun_single (ht : t.token = .ident)
    (h : ∀ d n rest, ts = d :: n :: rest → d.token = .dot → n.token ≠ .ident) :
    pathRun (t :: ts) = [t] := by
  unfold pathRun
  rw [if_pos ht]
  split
  next d n rest =>
    rw [if_neg]
    rintro ⟨hd, hn⟩
    exact h d n rest rfl hd hn
  next => rfl

theorem pathRun_eq_nil (h : ahead? ts ≠ some .ident) : pathRun ts = [] := by
  unfold pathRun
  split
  next => rfl
  next t ts =>
    rw [if_neg]
    intro ht
    exact h (congrArg some ht)

theorem exists_pathRun (ht : t.token = .ident) (ts : List Lexeme) :
    ∃ run, pathRun (t :: ts) = t :: run := by
  unfold pathRun
  rw [if_pos ht]
  split
  next => split <;> exact ⟨_, rfl⟩
  next => exact ⟨[], rfl⟩

theorem pathRun_ne_nil (ht : t.token = .ident) : pathRun (t :: ts) ≠ [] := by
  obtain ⟨run, hrun⟩ := exists_pathRun ht ts
  rw [hrun]
  exact List.cons_ne_nil t run

theorem ahead?_of_pathRun (h : pathRun ts ≠ []) : ahead? ts = some .ident := by
  by_contra hother
  exact h (pathRun_eq_nil hother)

theorem pathRun_induction {motive : List Lexeme → Prop}
    (none : ∀ ts, pathRun ts = [] → motive ts)
    (single : ∀ t ts, t.token = .ident → pathRun (t :: ts) = [t] → motive (t :: ts))
    (dotted : ∀ t d n rest, t.token = .ident → d.token = .dot → n.token = .ident →
      motive (n :: rest) → motive (t :: d :: n :: rest)) (ts : List Lexeme) : motive ts := by
  induction ts using pathRun.induct with
  | case1 => exact none [] pathRun.eq_1
  | case2 t ht d n rest hdn ih => exact dotted t d n rest ht hdn.1 hdn.2 ih
  | case3 t ht d n rest hdn =>
    apply single t _ ht
    rw [pathRun, if_pos ht, if_neg hdn]
  | case4 t rest ht hrest =>
    apply single t rest ht
    exact pathRun_single ht fun d n rest' he => absurd he (hrest d n rest')
  | case5 t rest ht =>
    apply none
    exact pathRun_eq_nil fun hident => ht (Option.some.inj hident)

theorem pathRun_prefix_self (ts : List Lexeme) : pathRun ts <+: ts := by
  induction ts using pathRun_induction with
  | none ts h =>
    rw [h]
    exact List.nil_prefix
  | single t ts ht h =>
    rw [h]
    exact List.prefix_append [t] ts
  | dotted t d n rest ht hd hn ih =>
    rw [pathRun_dotted ht hd hn]
    exact (List.prefix_cons_inj t).2 ((List.prefix_cons_inj d).2 ih)

/-- A run is read again, or a longer one, whatever follows it. -/
theorem pathRun_prefix_append (ts more : List Lexeme) :
    pathRun ts <+: pathRun (pathRun ts ++ more) := by
  induction ts using pathRun_induction with
  | none ts h =>
    rw [h]
    exact List.nil_prefix
  | single t ts ht h =>
    obtain ⟨run, hrun⟩ := exists_pathRun ht more
    rw [h, List.singleton_append, hrun]
    exact List.prefix_append [t] run
  | dotted t d n rest ht hd hn ih =>
    obtain ⟨run, hrun⟩ := exists_pathRun hn rest
    rw [hrun] at ih
    rw [pathRun_dotted ht hd hn, hrun, List.cons_append, List.cons_append, List.cons_append,
      pathRun_dotted ht hd hn]
    exact (List.prefix_cons_inj t).2 ((List.prefix_cons_inj d).2 ih)

end PathRun

theorem pathRun_prefix_significant (ts : List Lexeme) :
    pathRun ts <+: pathRun (significant ts) := by
  induction ts using pathRun_induction with
  | none ts h =>
    rw [h]
    exact List.nil_prefix
  | single t ts ht h =>
    obtain ⟨run, hrun⟩ := exists_pathRun ht (significant ts)
    rw [h, significant_cons (by rw [ht]; nofun), hrun]
    exact List.prefix_append [t] run
  | dotted t d n rest ht hd hn ih =>
    have hsig : significant (n :: rest) = n :: significant rest :=
      significant_cons (by rw [hn]; nofun) rest
    rw [significant_cons (by rw [ht]; nofun), significant_cons (by rw [hd]; nofun), hsig,
      pathRun_dotted ht hd hn, pathRun_dotted ht hd hn, ← hsig]
    exact (List.prefix_cons_inj t).2 ((List.prefix_cons_inj d).2 ih)

theorem pathRun_significant {ts : List Lexeme}
    (h : ∀ t ∈ ts.take (pathRun (significant ts)).length, t.token ≠ .comment) :
    pathRun ts = pathRun (significant ts) := by
  -- The tokens that the longer run takes are the same with and without comments, so that it is read
  -- from both.
  have hfront : pathRun (significant ts) <+: ts := by
    have hown := List.prefix_iff_eq_take.1 (pathRun_prefix_self (significant ts))
    rw [take_significant h] at hown
    exact List.prefix_iff_eq_take.2 hown
  obtain ⟨more, hmore⟩ := hfront
  have hlonger : pathRun (significant ts) <+: pathRun ts := by
    conv_rhs => rw [← hmore]
    exact pathRun_prefix_append _ more
  exact (pathRun_prefix_significant ts).eq_of_length_le hlonger.length_le

theorem segments_ne_nil (h : pathRun ts ≠ []) : segments (pathRun ts) ≠ [] := by
  cases ts with
  | nil => exact absurd pathRun.eq_1 h
  | cons t ts =>
    have ht : t.token = .ident := Option.some.inj (ahead?_of_pathRun h)
    obtain ⟨run, hrun⟩ := exists_pathRun ht ts
    rw [hrun, segments, List.filter_cons_of_pos (by simpa using ht)]
    exact List.cons_ne_nil _ _

section UsePaths

variable {t : Lexeme} {ts : List Lexeme}

theorem usePaths_cons (h : t.token ≠ .kwUse) (ts : List Lexeme) :
    usePaths (t :: ts) = usePaths ts := by
  rw [usePaths, if_neg fun hu => h hu.1]

theorem usePaths_use (ht : t.token = .kwUse) (hrun : pathRun ts ≠ []) :
    usePaths (t :: ts) = segments (pathRun ts) :: usePaths ts := by
  rw [usePaths, if_pos ⟨ht, hrun⟩]

theorem usePaths_append {front : List Lexeme} (h : ∀ t ∈ front, t.token ≠ .kwUse)
    (back : List Lexeme) : usePaths (front ++ back) = usePaths back := by
  induction front with
  | nil => rfl
  | cons t front ih =>
    obtain ⟨ht, hfront⟩ := List.forall_mem_cons.1 h
    rw [List.cons_append, usePaths_cons ht, ih hfront]

/-- The path after a `use` is where a comment cuts off what is read without comments. -/
theorem exists_significant_path {path : List String} (h : path ∈ usePaths ts) :
    path ≠ [] ∧ ∃ whole ∈ usePaths (significant ts), path <+: whole := by
  induction ts with
  | nil => cases h
  | cons t ts ih =>
    by_cases ht : t.token = .kwUse
    · rw [significant_cons (by rw [ht]; nofun)]
      have hlater (h : path ∈ usePaths ts) :
          path ≠ [] ∧ ∃ whole ∈ usePaths (t :: significant ts), path <+: whole := by
        obtain ⟨hne, whole, hwhole, hfront⟩ := ih h
        refine ⟨hne, whole, ?_, hfront⟩
        rw [usePaths]
        split
        · exact List.mem_cons_of_mem _ hwhole
        · exact hwhole
      by_cases hrun : pathRun ts = []
      · rw [usePaths, if_neg fun hu => hu.2 hrun] at h
        exact hlater h
      · rw [usePaths_use ht hrun] at h
        obtain rfl | h := List.mem_cons.1 h
        · have hfront := pathRun_prefix_significant ts
          have hwhole : pathRun (significant ts) ≠ [] := by
            intro hnil
            rw [hnil] at hfront
            exact hrun (List.prefix_nil.1 hfront)
          rw [usePaths_use ht hwhole]
          exact ⟨segments_ne_nil hrun, _, List.mem_cons_self, (hfront.filter _).map _⟩
        · exact hlater h
    · rw [usePaths_cons ht] at h
      by_cases hc : t.token = .comment
      · rw [significant_comment hc]
        exact ih h
      · rw [significant_cons hc, usePaths_cons ht]
        exact ih h

end UsePaths

section LetNames

theorem letNames_sublist_cons (t : Lexeme) (ts : List Lexeme) :
    (letNames ts).Sublist (letNames (t :: ts)) := by
  cases ts with
  | nil => exact List.Sublist.refl _
  | cons n ts =>
    simp only [letNames, List.tail_cons, List.zip_cons_cons, List.filterMap_cons]
    split
    · exact List.Sublist.refl _
    · exact List.sublist_cons_self _ _

theorem letNames_sublist (ts : List Lexeme) :
    (letNames ts).Sublist (letNames (significant ts)) := by
  induction ts with
  | nil => exact List.Sublist.refl _
  | cons t ts ih =>
    by_cases hc : t.token = .comment
    · rw [significant_comment hc, letNames_cons (by rw [hc]; nofun)]
      exact ih
    · rw [significant_cons hc]
      by_cases hlet : t.token = .kwLet ∧ ahead? ts = some .ident
      · obtain ⟨ht, hahead⟩ := hlet
        cases ts with
        | nil => cases hahead
        | cons n ts =>
          have hn : n.token = .ident := Option.some.inj hahead
          have hsig : significant (n :: ts) = n :: significant ts :=
            significant_cons (by rw [hn]; nofun) ts
          rw [hsig] at ih ⊢
          rw [letNames_let ht hn, letNames_let ht hn]
          exact ih.cons_cons n.text
      · have hnone : letNames (t :: ts) = letNames ts := by
          cases ts with
          | nil => rfl
          | cons n ts =>
            simp only [letNames, List.tail_cons, List.zip_cons_cons, List.filterMap_cons]
            rw [if_neg fun h => hlet ⟨h.1, congrArg some h.2⟩]
        rw [hnone]
        exact ih.trans (letNames_sublist_cons t _)

end LetNames

/-- Whether no comment stands between a `let` and its name, or between a `use` and the end of the
path after it. -/
def Unbroken : List Lexeme → Prop
  | [] => True
  | t :: rest =>
    (t.token = .kwLet → ahead? rest ≠ some .comment) ∧
    (t.token = .kwUse →
      ∀ n ∈ rest.take (pathRun (significant rest)).length, n.token ≠ .comment) ∧
    Unbroken rest

instance decidableUnbroken : (ts : List Lexeme) → Decidable (Unbroken ts)
  | [] => inferInstanceAs (Decidable True)
  | _ :: rest =>
    have := decidableUnbroken rest
    inferInstanceAs (Decidable (_ ∧ _ ∧ _))

namespace Unbroken

variable {ts : List Lexeme}

theorem usePaths_eq (h : Unbroken ts) : usePaths ts = usePaths (significant ts) := by
  induction ts with
  | nil => rfl
  | cons t ts ih =>
    obtain ⟨-, huse, hts⟩ := h
    by_cases ht : t.token = .kwUse
    · have hrun : pathRun ts = pathRun (significant ts) := pathRun_significant (huse ht)
      rw [significant_cons (by rw [ht]; nofun), usePaths, usePaths, hrun, ih hts]
    · by_cases hc : t.token = .comment
      · rw [significant_comment hc, usePaths_cons ht, ih hts]
      · rw [significant_cons hc, usePaths_cons ht, usePaths_cons ht, ih hts]

theorem letsBound (h : Unbroken ts) (hsig : LetsBound (significant ts)) : LetsBound ts := by
  induction ts with
  | nil => trivial
  | cons t ts ih =>
    obtain ⟨hlet, -, hts⟩ := h
    by_cases hc : t.token = .comment
    · rw [significant_comment hc] at hsig
      have hnot : t.token ≠ .kwLet := by rw [hc]; nofun
      exact ⟨fun ht => absurd ht hnot, ih hts hsig⟩
    · rw [significant_cons hc] at hsig
      refine ⟨fun ht => ?_, ih hts hsig.2⟩
      rw [← ahead?_significant (hlet ht)]
      exact hsig.1 ht

end Unbroken
end Outline

theorem Reads.segments_pathRun {n : Lexeme} {stop stop' : Nat} {names : List String}
    {ts rest : List Lexeme} (hn : n.token = .ident) (h : Reads (.names stop names stop') ts rest) :
    Outline.segments (Outline.pathRun (n :: ts)) = n.text :: names := by
  generalize hp : Phrase.names stop names stop' = phrase at h
  induction h generalizing n stop names with
  | nameEnd hdot =>
    cases hp
    rw [Outline.pathRun_single hn]
    · simp only [Outline.segments, hn, decide_true, List.filter_cons_of_pos, List.filter_nil,
        List.map_cons, List.map_nil]
    · rintro d m more rfl hd
      exact absurd (congrArg some hd) hdot
  | @nameMore _ _ d m _ _ _ hd hm _ ih =>
    cases hp
    have hrest := ih hm rfl
    have hdot : d.token ≠ .ident := by rw [hd]; nofun
    rw [Outline.pathRun_dotted hn hd hm]
    simp only [Outline.segments, hn, hdot, decide_true, decide_false, List.filter_cons_of_pos,
      Bool.false_eq_true, not_false_eq_true, List.filter_cons_of_neg, List.map_cons] at hrest ⊢
    rw [hrest]
  | _ => cases hp

theorem ReadsStmt.usePaths_eq {s : Stmt} {ts rest : List Lexeme} (h : ReadsStmt s ts rest) :
    Outline.usePaths ts = s.kind.used?.toList ++ Outline.usePaths rest := by
  cases h with
  | @bind t n a e _ _ ht hn ha he =>
    obtain ⟨taken, rfl, hkeys, -⟩ := he.startsIn
    rw [Outline.usePaths_cons (by rw [ht]; nofun), Outline.usePaths_cons (by rw [hn]; nofun),
      Outline.usePaths_cons (by rw [ha]; nofun), Outline.usePaths_append fun t ht => (hkeys t ht).2]
    rfl
  | @use t names span ts _ ht hp =>
    obtain ⟨taken, hts, hkeys, -⟩ := hp.startsIn
    have hafter : Outline.usePaths ts = Outline.usePaths rest := by
      rw [hts, Outline.usePaths_append fun t ht => (hkeys t ht).2]
    cases hp with
    | path hn hnames =>
      rw [Outline.usePaths_use ht (Outline.pathRun_ne_nil hn), hnames.segments_pathRun hn, hafter]
      rfl
  | expr _ _ he =>
    obtain ⟨taken, hts, hkeys, -⟩ := he.startsIn
    rw [hts, Outline.usePaths_append fun t ht => (hkeys t ht).2]
    rfl

theorem ReadsScript.usePaths_eq {script : Script} {ts : List Lexeme} (h : ReadsScript script ts) :
    Outline.usePaths ts = script.usedPaths := by
  induction h with
  | nil => rfl
  | semi ht _ ih => rw [Outline.usePaths_cons (by rw [ht]; nofun), ih]
  | last _ hs => rw [hs.usePaths_eq, Script.usedPaths_cons]; rfl
  | more _ hs hu _ ih =>
    rw [hs.usePaths_eq, Outline.usePaths_cons (by rw [hu]; nofun), ih, Script.usedPaths_cons]

/-- An outline shows nothing but names and fronts of paths of the statements that a text parses as.
Where no comment stands inside a path that is imported or between a `let` and its name, it shows
the paths and the names of the statements, each at its first mention. -/
theorem outline_shows_statements {text : String} {script : Script} (h : parse text = .ok script) :
    (∀ path ∈ Outline.imports text, ∃ front used, path = dotted front ∧ front ≠ [] ∧
      used ∈ script.usedPaths ∧ front <+: used) ∧
    (∀ name ∈ Outline.bindings text, name ∈ script.boundNames) ∧
    (Outline.Unbroken (lex text.toList).tokens →
      Outline.imports text = (script.usedPaths.map dotted).eraseDups ∧
        Outline.bindings text = script.boundNames.eraseDups) := by
  obtain ⟨-, hreads⟩ := parse_eq_ok_iff.1 h
  obtain ⟨hbound, hnames⟩ := hreads.letNames_eq
  refine ⟨fun path hpath => ?_, fun name hname => ?_, fun hwhole => ⟨?_, ?_⟩⟩
  · obtain ⟨front, hfront, rfl⟩ := List.mem_map.1 (List.mem_eraseDups.1 hpath)
    obtain ⟨hne, used, hused, hcut⟩ := Outline.exists_significant_path hfront
    rw [hreads.usePaths_eq] at hused
    exact ⟨front, used, rfl, hne, hused, hcut⟩
  · rw [← hnames]
    exact (Outline.letNames_sublist _).subset (List.mem_eraseDups.1 hname)
  · rw [Outline.imports, hwhole.usePaths_eq, hreads.usePaths_eq]
  · have hlets := Outline.letNames_significant_of_letsBound (hwhole.letsBound hbound)
    rw [Outline.bindings, ← hlets, hnames]

/-- A text with comments between its statements, which names a module and a binding twice. -/
theorem outline_of_repeated_names :
    let text := "use Kiln.Text; // one\nlet x = 1; use Kiln.Net;\n// two\nlet x = 2; use Kiln.Text"
    ∃ script, parse text = .ok script ∧ Outline.Unbroken (lex text.toList).tokens ∧
      script.usedPaths = [["Kiln", "Text"], ["Kiln", "Net"], ["Kiln", "Text"]] ∧
      Outline.imports text = (script.usedPaths.map dotted).eraseDups ∧
      Outline.bindings text = script.boundNames.eraseDups := by
  intro text
  have hpaths : (parse text).toOption.map Script.usedPaths =
      some [["Kiln", "Text"], ["Kiln", "Net"], ["Kiln", "Text"]] := by decide +kernel
  have hwhole : Outline.Unbroken (lex text.toList).tokens := by decide +kernel
  rcases hparse : parse text with _ | script
  · rw [hparse] at hpaths
    cases hpaths
  · rw [hparse] at hpaths
    obtain ⟨-, -, hshows⟩ := outline_shows_statements hparse
    obtain ⟨himports, hbindings⟩ := hshows hwhole
    exact ⟨script, rfl, hwhole, Option.some.inj hpaths, himports, hbindings⟩

/-- An outline misses a path and a name that a comment parts from their keywords. -/
theorem outline_misses_broken_names :
    let text := "use // note\nKiln.Text; let // note\nx = 1"
    ∃ script, parse text = .ok script ∧ script.usedPaths = [["Kiln", "Text"]] ∧
      script.boundNames = ["x"] ∧ Outline.imports text = [] ∧ Outline.bindings text = [] := by
  intro text
  have hscript : (parse text).toOption.map (fun s => (s.usedPaths, s.boundNames)) =
      some ([["Kiln", "Text"]], ["x"]) := by decide +kernel
  rcases hparse : parse text with _ | script
  · rw [hparse] at hscript
    cases hscript
  · rw [hparse] at hscript
    obtain ⟨hpaths, hnames⟩ := Prod.mk.inj (Option.some.inj hscript)
    exact ⟨script, rfl, hpaths, hnames, by decide +kernel, by decide +kernel⟩

end ScriptSession
