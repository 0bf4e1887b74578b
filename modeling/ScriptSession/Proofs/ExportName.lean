import ScriptSession.Proofs.Export
import ScriptSession.Proofs.Resolution
import ScriptSession.Proofs.RoundTrip

namespace ScriptSession

namespace Lexer

theorem piece_follow {next : Char} {long short piece : Piece} {cs : List Char}
    (h : (follow next long short cs).1 = piece) : long = piece ∨ short = piece := by
  cases cs with
  | nil => exact .inr h
  | cons d cs =>
    rw [follow] at h
    split at h
    · exact .inl h
    · exact .inr h

theorem isWordStart_of_ident {c : Char} {cs : List Char}
    (h : (munch c cs).1 = .token .ident) : isWordStart c = true := by
  by_contra hw
  unfold munch at h
  split at h
  · cases h
  split at h
  · cases h
  split at h
  · split at h <;> cases h
  · split at h <;> cases h
  · split at h <;> cases h
  all_goals first | cases h | exact (piece_follow h).elim nofun nofun

theorem isBlank_of_isGap {c : Char} (h : isGap c = true) : Text.isBlank c = true := by
  obtain rfl | rfl | rfl | rfl := eq_of_isGap h <;> decide

theorem isGap_of_pieces_eq_nil {offset : Nat} {cs : List Char} (h : pieces offset cs = []) :
    ∀ c ∈ cs, isGap c = true := by
  induction offset, cs using pieces_induction with
  | nil => exact List.forall_mem_nil _
  | gap offset c cs hc ih =>
    rw [pieces_gap hc] at h
    exact List.forall_mem_cons.2 ⟨hc, ih h⟩
  | piece offset c cs hc ih =>
    rw [pieces_cons hc] at h
    cases h

theorem munch_of_pieces {offset : Nat} {c : Char} {cs : List Char} {f : Fragment}
    (ht : Text.IsTrimmed (c :: cs)) (h : pieces offset (c :: cs) = [f]) :
    munch c cs = (f.piece, cs, []) := by
  have hc : isGap c = false := by
    refine Bool.eq_false_iff.2 fun hg => ?_
    cases (isBlank_of_isGap hg).symm.trans (ht.1 c rfl)
  rw [pieces_cons hc] at h
  obtain ⟨hf, hrest⟩ := List.cons.inj h
  have hgaps := isGap_of_pieces_eq_nil hrest
  have happend := munch_append c cs
  obtain hnil | ⟨front, d, hlast⟩ := List.eq_nil_or_concat (munch c cs).2.2
  · rw [hnil, List.append_nil] at happend
    rw [← hf]
    exact Prod.ext rfl (Prod.ext happend hnil)
  · -- the text would end in a gap
    rw [hlast] at hgaps happend
    have hgap : isGap d = true := hgaps d (by simp)
    have hend : d ∈ (c :: cs).getLast? := by
      rw [← happend, List.concat_eq_append, ← List.append_assoc, ← List.cons_append,
        List.getLast?_concat]
      rfl
    cases (isBlank_of_isGap hgap).symm.trans (ht.2 d hend)

theorem piece_ne_blank {offset : Nat} {cs : List Char} {f : Fragment}
    (h : f ∈ pieces offset cs) : f.piece ≠ .blank :=
  of_decide_eq_true (List.mem_filter.1 h).2

theorem map_piece_of_strays {cs : List Char} (h : (lex cs).strays = []) :
    (pieces 0 cs).map (·.piece) = (lex cs).tokens.map fun t => .token t.token := by
  have htokens (fs : List Fragment) (hb : ∀ f ∈ fs, f.piece ≠ .blank)
      (hs : ∀ f ∈ fs, f.piece ≠ .stray) :
      fs.map (·.piece) = (fs.filterMap Fragment.lexeme?).map fun t => .token t.token := by
    induction fs with
    | nil => rfl
    | cons f fs ih =>
      obtain ⟨hblank, hblanks⟩ := List.forall_mem_cons.1 hb
      obtain ⟨hstray, hstrays⟩ := List.forall_mem_cons.1 hs
      cases hf : f.piece with
      | blank => exact absurd hf hblank
      | stray => exact absurd hf hstray
      | token t =>
        have hlexeme : f.lexeme? = some ⟨t, String.ofList f.chars, f.span⟩ := by
          rw [Fragment.lexeme?, hf]
        rw [List.map_cons, hf, List.filterMap_cons_some hlexeme, List.map_cons,
          ih hblanks hstrays]
  rw [tokens_lex]
  exact htokens _ (fun f hf => piece_ne_blank hf) (piece_ne_stray h)

theorem pieces_identifier {s : String} (h : IsIdentifier s) (offset : Nat) {rest : List Char}
    (hrest : ∀ d ∈ rest.head?, isWordPart d = false) :
    pieces offset (s.toList ++ rest) =
      ⟨.token .ident, s.toList, offset⟩ :: pieces (offset + Text.byteLength s.toList) rest := by
  obtain ⟨c, cs, hs, hc, hmunch⟩ := munch_identifier h
  rw [hs, List.cons_append, pieces_cons hc, hmunch rest hrest]

theorem pieces_dot (offset : Nat) (rest : List Char) :
    pieces offset ('.' :: rest) = ⟨.token .dot, ['.'], offset⟩ :: pieces (offset + 1) rest :=
  pieces_cons rfl offset rest

theorem pieces_dotted {segments : List String} (h : IsPath segments) (offset : Nat) :
    ∃ fs n, fs.map (fun f => (f.piece, f.chars)) =
        (pathWords segments).map (fun w => (.token w.1, w.2.toList)) ∧
      ∀ rest : List Char, (∀ d ∈ rest.head?, isWordPart d = false) →
        pieces offset ((dotted segments).toList ++ rest) = fs ++ pieces n rest := by
  obtain ⟨hne, hsegments⟩ := h
  induction segments generalizing offset with
  | nil => exact absurd rfl hne
  | cons s segments ih =>
    obtain ⟨hs, htail⟩ := List.forall_mem_cons.1 hsegments
    cases segments with
    | nil =>
      exact ⟨[⟨.token .ident, s.toList, offset⟩], offset + Text.byteLength s.toList, rfl,
        fun rest hrest => pieces_identifier hs offset hrest⟩
    | cons s' segments =>
      obtain ⟨fs, n, hwords, hpieces⟩ :=
        ih (offset + Text.byteLength s.toList + 1) (List.cons_ne_nil _ _) htail
      refine ⟨⟨.token .ident, s.toList, offset⟩ ::
        ⟨.token .dot, ['.'], offset + Text.byteLength s.toList⟩ :: fs, n, ?_, fun rest hrest => ?_⟩
      · rw [List.map_cons, List.map_cons, hwords]
        rfl
      · have htext : (dotted (s :: s' :: segments)).toList ++ rest =
            s.toList ++ '.' :: ((dotted (s' :: segments)).toList ++ rest) := by
          simp [dotted, String.toList_intercalate]
        rw [htext, pieces_identifier hs, pieces_dot, hpieces rest hrest]
        · rfl
        · intro d hd
          cases hd
          rfl

end Lexer

theorem lex_identifier {s : String} (h : IsIdentifier s) :
    lex s.toList = ⟨[⟨.ident, s, ⟨0, Text.byteLength s.toList⟩⟩], []⟩ := by
  have hpieces : Lexer.pieces 0 (s.toList ++ []) = _ := Lexer.pieces_identifier h 0 nofun
  rw [List.append_nil, Lexer.pieces_nil] at hpieces
  have htokens := tokens_lex s.toList
  have hstrays := strays_lex s.toList
  rw [hpieces] at htokens hstrays
  have hlexeme : (⟨.token .ident, s.toList, 0⟩ : Fragment).lexeme? =
      some ⟨.ident, s, ⟨0, Text.byteLength s.toList⟩⟩ := by
    simp [Fragment.lexeme?, Fragment.span]
  rw [List.filterMap_cons_some hlexeme] at htokens
  cases hlex : lex s.toList with
  | mk tokens strays =>
    rw [hlex] at htokens hstrays
    cases htokens
    cases hstrays
    rfl

/-- A trimmed text whose only token is an identifier is that identifier, unless something stray
stands beside it. -/
theorem isIdentifier_of_isName {s : String} (ht : Text.IsTrimmed s.toList)
    (hname : ModuleFile.isName s.toList = true) (hstrays : (lex s.toList).strays = []) :
    IsIdentifier s := by
  have hpieces := Lexer.map_piece_of_strays hstrays
  have htokens : (lex s.toList).tokens.map (·.token) = [.ident] := of_decide_eq_true hname
  obtain ⟨t, htoken, hident⟩ := List.map_eq_singleton_iff.1 htokens
  rw [htoken, List.map_singleton, hident] at hpieces
  obtain ⟨f, hf, hpiece⟩ := List.map_eq_singleton_iff.1 hpieces
  cases hs : s.toList with
  | nil =>
    rw [hs, Lexer.pieces_nil] at hf
    cases hf
  | cons c cs =>
    rw [hs] at hf ht
    have hmunch := Lexer.munch_of_pieces ht hf
    have hfirst : (Lexer.munch c cs).1 = .token .ident := by
      rw [hmunch]
      exact hpiece
    have hc := Lexer.isWordStart_of_ident hfirst
    rw [Lexer.munch_word hc, hpiece] at hmunch
    obtain ⟨hword, htake, -⟩ : Token.ofWord (c :: cs.takeWhile Lexer.isWordPart) = .ident ∧
        cs.takeWhile Lexer.isWordPart = cs ∧ cs.dropWhile Lexer.isWordPart = [] := by
      simpa [Lexer.takeWord] using hmunch
    refine ⟨c, cs, hs, hc, List.takeWhile_eq_self_iff.1 htake, ?_⟩
    rw [htake, Token.ofWord_eq_ident_iff, ← hs, String.ofList_toList] at hword
    exact hword

theorem parse_dotted {segments : List String} (h : IsPath segments) :
    ∃ span, parse (dotted segments) = .ok [⟨.expr (.path span segments), span, false⟩] := by
  obtain ⟨fs, n, hwords, hpieces⟩ := Lexer.pieces_dotted h 0
  have hall := hpieces [] nofun
  rw [List.append_nil, Lexer.pieces_nil, List.append_nil] at hall
  obtain ⟨hstrays, htokens⟩ := lex_of_pieces (hall ▸ hwords)
  have hkept := significant_of_words htokens fun w hw => (Lexer.readable_path h w hw).1
  obtain ⟨span, hpath⟩ := spells_path h.1 htokens
  have hexpr : Spells (.expr (.path span segments)) ((lex (dotted segments).toList).tokens ++ []) :=
    .expr (.unsigned (.name hpath)) .done (.operand _)
  refine ⟨span, parse_eq_ok_iff.2 ⟨hstrays, readsScript_iff_spells.2 ?_⟩⟩
  rw [hkept]
  rw [List.append_nil] at hexpr
  exact .last (.expr hexpr)

theorem dotted_concat {segments : List String} (h : segments ≠ []) (key : String) :
    dotted (segments ++ [key]) = s!"{dotted segments}.{key}" := by
  rw [dotted, String.intercalate_append_of_ne_nil h (List.cons_ne_nil _ _),
    String.intercalate_singleton]
  rfl

/-- What is stray after a dotted path keeps the whole text from being a script. -/
theorem parse_ne_ok_of_strays {segments : List String} (h : IsPath segments) {key : String}
    (hkey : (lex key.toList).strays ≠ []) (script : Script) :
    parse s!"{dotted segments}.{key}" ≠ .ok script := by
  intro hparse
  obtain ⟨fs, n, -, hpieces⟩ := Lexer.pieces_dotted h 0
  have htext : s!"{dotted segments}.{key}".toList =
      (dotted segments).toList ++ '.' :: key.toList := by
    rw [String.toList_append, String.toList_append, List.append_assoc]
    rfl
  have hstrays := (parse_eq_ok_iff.1 hparse).1
  have hshift := Lexer.pieces_shift (n + 1) 0 key.toList
  rw [Nat.zero_add] at hshift
  rw [htext, strays_lex, hpieces _ (by intro d hd; cases hd; rfl), Lexer.pieces_dot, hshift,
    List.filterMap_append, List.append_eq_nil_iff] at hstrays
  obtain ⟨-, hafter⟩ := hstrays
  apply hkey
  rw [strays_lex, List.filterMap_eq_nil_iff]
  rw [List.filterMap_eq_nil_iff] at hafter
  intro f hf
  have hnone := hafter (f.shift (n + 1)) (List.mem_cons_of_mem _ (List.mem_map_of_mem hf))
  rw [Fragment.stray?_shift] at hnone
  exact Option.map_eq_none_iff.1 hnone

theorem Scope.resolve_concat (s : Scope) {segments : List String} (h : segments ≠ [])
    (name : String) :
    s.resolve (segments ++ [name]) = (s.resolveQualified segments name).map some := by
  cases segments with
  | nil => exact absurd rfl h
  | cons first rest =>
    have hresolve : s.resolve (first :: rest ++ [name]) =
        (s.resolveQualified (first :: rest ++ [name]).dropLast
          ((first :: rest ++ [name]).getLast (List.concat_ne_nil _ _))).map some := by
      cases rest <;> rfl
    rw [hresolve, List.dropLast_concat, List.getLast_concat]

def pathScript (span : Span) (segments : List String) : Script :=
  [⟨.expr (.path span segments), span, false⟩]

theorem check_pathScript {s : Scope} {segments : List String} {r : Resolution} {t : Ty}
    (h : s.resolve segments = .ok (some (r, t))) (span : Span) :
    ∃ checked, check s (pathScript span segments) = .ok checked ∧ checked.finalTy = some t := by
  have hinfer : s.infer (.path span segments) = ⟨some t, .none⟩ := by rw [Scope.infer, h]
  have hstep : ((pathScript span segments).foldl Checking.step (.start s)).findings.toList = [] ∧
      ((pathScript span segments).foldl Checking.step (.start s)).finalTy = some t := by
    simp only [pathScript, List.foldl_cons, List.foldl_nil, Checking.step, Checking.start, hinfer]
    exact ⟨rfl, rfl⟩
  exact ⟨_, check_eq_ok_iff.2 ⟨hstep.1, rfl⟩, hstep.2⟩

/-- Below the name of a module that is in the table, the name of an export has its type. -/
theorem check_export {s : Scope} {m : Module} {segments : List String} {key : String} {v : Value}
    (hne : segments ≠ []) (hm : s.modules.get? (dotted segments) = some m)
    (hv : m.exports[key]? = some v) (span : Span) :
    ∃ checked, check s (pathScript span (segments ++ [key])) = .ok checked ∧
      checked.finalTy = some v.ty := by
  have hfind : s.findModule? (dotted segments) = some m := by
    rw [Scope.findModule?_eq, hm, Option.some_or]
  have hexported : Scope.exported? m key = some (.exported m key, v.ty) := by
    rw [Scope.exported?, hv, Option.map_some]
  apply check_pathScript
  rw [s.resolve_concat hne, Scope.resolveQualified_of_findModule? hfind, Scope.member, hexported]
  rfl

/-- Every export stands under a text whose only token is an identifier. Where nothing stray stands
beside it, the token is the whole text, and below the name of the module it is a script that checks
to the type of the export; else no script can name the export. -/
theorem ModuleFile.export_is_named_unless_stray {path : Path} {text : List Char} {m : Module}
    (h : parse path text = .ok m) {key : String} {v : Value} (hv : m.exports[key]? = some v) :
    (lex key.toList).tokens.map (·.token) = [.ident] ∧
    ((lex key.toList).strays = [] →
      lex key.toList = ⟨[⟨.ident, key, ⟨0, Text.byteLength key.toList⟩⟩], []⟩) ∧
    ∀ segments, IsPath segments → m.name = dotted segments →
      ((lex key.toList).strays = [] →
        ∃ span, ScriptSession.parse s!"{m.name}.{key}" = .ok (pathScript span (segments ++ [key])) ∧
          ∀ s : Scope, s.modules.get? m.name = some m →
            ∃ checked, check s (pathScript span (segments ++ [key])) = .ok checked ∧
              checked.finalTy = some v.ty) ∧
      ((lex key.toList).strays ≠ [] →
        ∀ script, ScriptSession.parse s!"{m.name}.{key}" ≠ .ok script) := by
  have hkey : key ∈ m.exports := by
    rw [Std.ExtTreeMap.mem_iff_isSome_getElem?, hv]
    rfl
  obtain ⟨htrimmed, hname⟩ := name_of_parse h hkey
  have hident := isIdentifier_of_isName htrimmed hname
  refine ⟨of_decide_eq_true hname, fun hs => lex_identifier (hident hs), ?_⟩
  intro segments hsegments hm
  rw [hm]
  constructor
  · intro hs
    have hpath : IsPath (segments ++ [key]) :=
      ⟨List.concat_ne_nil _ _,
        List.forall_mem_append.2 ⟨hsegments.2, List.forall_mem_singleton.2 (hident hs)⟩⟩
    obtain ⟨span, hparse⟩ := parse_dotted hpath
    rw [dotted_concat hsegments.1] at hparse
    exact ⟨span, hparse, fun s hget => check_export hsegments.1 hget hv span⟩
  · exact parse_ne_ok_of_strays hsegments

/-- `x` can be named below `A.B`, and `y$`, which the file lists just as well, can not. -/
theorem ModuleFile.names_of_export_and_stray :
    let text := "kmod A.B, Version=1\nexport x = -5\nexport y$ = true".toList
    let source (m : Module) (key : String) : String := s!"{m.name}.{key}"
    ∃ m, parse ⟨"a.dll"⟩ text = .ok m ∧ m.name = dotted ["A", "B"] ∧
      m.exports["x"]? = some (.int (-5)) ∧ m.exports["y$"]? = some (.bool true) ∧
      (∃ span, ScriptSession.parse (source m "x") = .ok (pathScript span ["A", "B", "x"]) ∧
        ∀ s : Scope, s.modules.get? m.name = some m →
          ∃ checked, check s (pathScript span ["A", "B", "x"]) = .ok checked ∧
            checked.finalTy = some .int) ∧
      ∀ script, ScriptSession.parse (source m "y$") ≠ .ok script := by
  intro text source
  have hruns : (parse ⟨"a.dll"⟩ text).toOption.map
      (fun m => (m.name, m.exports["x"]?, m.exports["y$"]?)) =
        some ("A.B", some (.int (-5)), some (.bool true)) := by decide +kernel
  have hstrays : (lex "x".toList).strays = [] ∧ (lex "y$".toList).strays ≠ [] := by
    decide +kernel
  have hpath : IsPath ["A", "B"] :=
    ⟨List.cons_ne_nil _ _, List.forall_mem_cons.2
      ⟨⟨'A', [], rfl, rfl, List.forall_mem_nil _, by decide⟩, List.forall_mem_singleton.2
        ⟨'B', [], rfl, rfl, List.forall_mem_nil _, by decide⟩⟩⟩
  cases h : parse ⟨"a.dll"⟩ text with
  | error e =>
    rw [h] at hruns
    cases hruns
  | ok m =>
    rw [h] at hruns
    obtain ⟨hm, hexports⟩ := Prod.mk.inj (Option.some.inj hruns)
    obtain ⟨hx, hy⟩ := Prod.mk.inj hexports
    obtain ⟨-, -, hnamed⟩ := export_is_named_unless_stray h hx
    obtain ⟨-, -, hunnamed⟩ := export_is_named_unless_stray h hy
    exact ⟨m, rfl, hm, hx, hy, (hnamed _ hpath hm).1 hstrays.1, (hunnamed _ hpath hm).2 hstrays.2⟩

/-- An export may stand under `a$`, which is not an identifier: the dollar sign is stray. -/
theorem ModuleFile.export_with_stray_name :
    let text := "kmod M, Version=1\nexport a$ = 1".toList
    (∃ m, parse ⟨"m.dll"⟩ text = .ok m ∧ "a$" ∈ m.exports) ∧
      ¬ (∀ (path : Path) (text : List Char) (m : Module), parse path text = .ok m →
        ∀ key ∈ m.exports, ∃ span, lex key.toList = ⟨[⟨.ident, key, span⟩], []⟩) := by
  intro text
  have hruns : (parse ⟨"m.dll"⟩ text).toOption.any (fun m => m.exports.contains "a$") = true := by
    decide +kernel
  have hstrays : (lex "a$".toList).strays ≠ [] := by decide +kernel
  cases h : parse ⟨"m.dll"⟩ text with
  | error e =>
    rw [h] at hruns
    cases hruns
  | ok m =>
    rw [h] at hruns
    have hkey : "a$" ∈ m.exports := Std.ExtTreeMap.contains_iff_mem.1 hruns
    refine ⟨⟨m, rfl, hkey⟩, fun hall => ?_⟩
    obtain ⟨span, hlex⟩ := hall _ _ m h _ hkey
    exact hstrays (congrArg Lexing.strays hlex)

end ScriptSession
