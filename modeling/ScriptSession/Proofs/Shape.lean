import ScriptSession.Proofs.Printing

namespace ScriptSession

/-- What no token starts with is a character that is no blank, or a quote with what would stand in a
string. -/
inductive IsStray : List Char → Prop
  | single {c : Char} : Lexer.isGap c = false → c ≠ '"' → IsStray [c]
  | quote {body : List Char} : IsBody body → IsStray ('"' :: body)

namespace Token

def spelling? : Token → Option (List Char)
  | kwLet => some ['l', 'e', 't']
  | kwUse => some ['u', 's', 'e']
  | kwTrue => some ['t', 'r', 'u', 'e']
  | kwFalse => some ['f', 'a', 'l', 's', 'e']
  | lparen => some ['(']
  | rparen => some [')']
  | comma => some [',']
  | dot => some ['.']
  | semi => some [';']
  | assign => some ['=']
  | plus => some ['+']
  | minus => some ['-']
  | star => some ['*']
  | slash => some ['/']
  | percent => some ['%']
  | eqEq => some ['=', '=']
  | notEq => some ['!', '=']
  | lt => some ['<']
  | ltEq => some ['<', '=']
  | gt => some ['>']
  | gtEq => some ['>', '=']
  | andAnd => some ['&', '&']
  | orOr => some ['|', '|']
  | bang => some ['!']
  | comment | directive | int | str | ident => none

/-- `Matches token word`: the word has the shape of the token. -/
inductive Matches : Token → List Char → Prop
  | fixed {token : Token} {word : List Char} : token.spelling? = some word → Matches token word
  | comment {cs : List Char} : '\n' ∉ cs → Matches comment ('/' :: '/' :: cs)
  | directive {cs : List Char} :
      cs ≠ [] → (∀ c ∈ cs, c.isAlpha = true) → Matches directive ('#' :: cs)
  | int {cs : List Char} : cs ≠ [] → (∀ c ∈ cs, c.isDigit = true) → Matches int cs
  | str {body : List Char} : IsBody body → Matches str ('"' :: (body ++ ['"']))
  | ident {c : Char} {cs : List Char} :
      Lexer.isWordStart c = true → (∀ d ∈ cs, Lexer.isWordPart d = true) → Matches ident (c :: cs)

/-- Whether `word` is what a lexer takes in front of `word ++ rest`: no longer word there has the
shape of a token, and of the tokens with the shape of this one a keyword goes before an
identifier. -/
structure Longest (token : Token) (word rest : List Char) : Prop where
  isMatch : token.Matches word
  length_le : ∀ {other : Token} {longer : List Char}, other.Matches longer →
    longer <+: word ++ rest → longer.length ≤ word.length
  preferred : ∀ {other : Token}, other.Matches word →
    other = token ∨ other = .ident ∧ token.isKeyword = true

end Token

/-- Whether `word` is what a lexer passes over in front of `word ++ rest`: nothing there has the
shape of a token, and no longer word the shape of what is passed over. -/
structure LongestStray (word rest : List Char) : Prop where
  isStray : IsStray word
  noToken : ∀ {token : Token} {other : List Char}, token.Matches other → ¬ other <+: word ++ rest
  length_le : ∀ {longer : List Char}, IsStray longer →
    longer <+: word ++ rest → longer.length ≤ word.length

theorem IsBody.newline {body : List Char} (h : IsBody body) : '\n' ∉ body := by
  induction h with
  | nil => exact List.not_mem_nil
  | plain hc _ ih =>
    intro hm
    obtain rfl | hm := List.mem_cons.1 hm
    · exact hc (.inr (.inr (.inl rfl)))
    · exact ih hm
  | escape hc _ ih =>
    intro hm
    obtain h | hm := List.mem_cons.1 hm
    · cases h
    obtain rfl | hm := List.mem_cons.1 hm
    · exact hc rfl
    · exact ih hm

theorem Token.Matches.newline {token : Token} {word : List Char} (h : token.Matches word) :
    '\n' ∉ word := by
  have hclass {p : Char → Bool} {cs : List Char} (hp : p '\n' = false)
      (hcs : ∀ c ∈ cs, p c = true) : '\n' ∉ cs := fun hm => by
    cases hp.symm.trans (hcs _ hm)
  cases h with
  | fixed h => cases token <;> cases h <;> decide
  | comment hcs => simpa using hcs
  | directive _ hcs => simpa using hclass (by decide) hcs
  | int _ hcs => exact hclass (by decide) hcs
  | str hbody => simpa using hbody.newline
  | ident hc hcs =>
    intro hm
    obtain rfl | hm := List.mem_cons.1 hm
    · cases hc
    · exact hclass (by decide) hcs hm

theorem IsStray.newline {word : List Char} (h : IsStray word) : '\n' ∉ word := by
  cases h with
  | single hgap =>
    intro hm
    cases List.mem_singleton.1 hm
    cases hgap
  | quote hbody => simpa using hbody.newline

theorem Token.Matches.ne_nil {token : Token} {word : List Char} (h : token.Matches word) :
    word ≠ [] := by
  cases h with
  | fixed h => cases token <;> cases h <;> exact List.cons_ne_nil _ _
  | int hne _ => exact hne
  | _ => exact List.cons_ne_nil _ _

namespace Lexer

theorem length_body_le {body cs : List Char} (h : IsBody body) (hcs : body <+: cs) :
    body.length ≤ (quotedRun [] cs).1.length := by
  obtain ⟨rest, rfl⟩ := hcs
  obtain ⟨more, -, hrun⟩ := isBody_quotedRun (body.reverse ++ []) rest
  rw [quotedRun_body h, hrun]
  simp

theorem taken_of_stray {cs : List Char} (h : (takeQuote cs).1 = .stray) :
    (takeQuote cs).2.1 = (quotedRun [] cs).1 := by
  unfold takeQuote at h ⊢
  split at h
  next => cases h
  next heq => rw [heq]

theorem follow_cases (next : Char) (long short : Piece) (cs : List Char) :
    (follow next long short cs).1 = long ∧ (follow next long short cs).2.1 = [next] ∨
      (follow next long short cs).1 = short ∧ (follow next long short cs).2.1 = [] := by
  cases cs with
  | nil => exact .inr ⟨rfl, rfl⟩
  | cons d cs =>
    rw [follow]
    split
    next hd => exact .inl ⟨rfl, congrArg (fun c => [c]) hd⟩
    next => exact .inr ⟨rfl, rfl⟩

end Lexer

theorem Token.isKeyword_ofWord (word : List Char) :
    ofWord word = .ident ∨ (ofWord word).isKeyword = true := by
  unfold ofWord
  repeat' split
  all_goals first | exact .inr rfl | exact .inl rfl

theorem Token.matches_ofWord {c : Char} {cs : List Char} (hc : Lexer.isWordStart c = true)
    (hcs : ∀ d ∈ cs, Lexer.isWordPart d = true) : (ofWord (c :: cs)).Matches (c :: cs) := by
  unfold ofWord
  split
  next h => exact .fixed (congrArg some h.symm)
  split
  next h => exact .fixed (congrArg some h.symm)
  split
  next h => exact .fixed (congrArg some h.symm)
  split
  next h => exact .fixed (congrArg some h.symm)
  exact .ident hc hcs

namespace Lexer

theorem takeWhile_run {p : Char → Bool} {cs : List Char} (h : ∀ c ∈ cs, p c = true)
    (rest : List Char) : (cs ++ rest).takeWhile p = cs ++ rest.takeWhile p :=
  List.takeWhile_append_of_pos h

/-- What is taken where a word with the shape of `token` stands: that word and maybe more, and
where it is no more, `token` itself or the keyword that the word is. -/
def Covers (token : Token) (word : List Char) (m : Piece × List Char × List Char) : Prop :=
  ∃ taken more, m.1 = .token taken ∧ m.2.1 = word ++ more ∧
    (more = [] → token = taken ∨ token = .ident ∧ taken.isKeyword = true)

theorem covers_word {c : Char} {cs : List Char} {token : Token} (hc : isWordStart c = true)
    (hcs : ∀ d ∈ cs, isWordPart d = true) (rest : List Char)
    (ht : token = .ident ∨ token = Token.ofWord (c :: cs)) :
    Covers token cs (munch c (cs ++ rest)) := by
  rw [munch_word hc, takeWord, takeWhile_run hcs]
  refine ⟨_, rest.takeWhile isWordPart, rfl, rfl, fun hmore => ?_⟩
  rw [hmore, List.append_nil]
  obtain rfl | rfl := ht
  · exact (Token.isKeyword_ofWord (c :: cs)).imp Eq.symm fun h => ⟨rfl, h⟩
  · exact .inl rfl

theorem covers_follow (next : Char) (long short : Token) (rest : List Char) :
    Covers short [] (follow next (.token long) (.token short) rest) := by
  obtain ⟨hpiece, htaken⟩ | ⟨hpiece, htaken⟩ :=
    follow_cases next (.token long) (.token short) rest
  · exact ⟨long, [next], hpiece, htaken, nofun⟩
  · exact ⟨short, [], hpiece, htaken, fun _ => .inl rfl⟩

theorem covers_slash (rest : List Char) : Covers .slash [] (takeSlash rest) := by
  unfold takeSlash
  split
  next hslash =>
    refine ⟨.comment, rest.takeWhile (· ≠ '\n'), rfl, rfl, fun hnone => ?_⟩
    cases rest with
    | nil => cases hslash
    | cons d rest => cases hslash; cases hnone
  next => exact ⟨.slash, [], rfl, rfl, fun _ => .inl rfl⟩

theorem covers_fixed {token : Token} {c : Char} {cs : List Char}
    (h : token.spelling? = some (c :: cs)) (rest : List Char) :
    Covers token cs (munch c (cs ++ rest)) := by
  have hexact {t : Token} {m : Piece × List Char × List Char} (hpiece : m.1 = .token t)
      (htaken : m.2.1 = cs) : Covers t cs m :=
    ⟨t, [], hpiece, htaken.trans (List.append_nil cs).symm, fun _ => .inl rfl⟩
  cases token with
  | comment | directive | int | str | ident => cases h
  | kwLet | kwUse | kwTrue | kwFalse =>
    cases h
    exact covers_word (by decide) (List.all_eq_true.1 rfl) rest (.inr (by decide))
  | assign | bang | lt | gt =>
    cases h
    exact covers_follow _ _ _ rest
  | slash =>
    cases h
    exact covers_slash rest
  | _ =>
    cases h
    exact hexact rfl rfl

/-- Where a word has the shape of a token, that word is taken or a longer one. -/
theorem munch_of_matches {token : Token} {c : Char} {cs : List Char} (h : token.Matches (c :: cs))
    (rest : List Char) : Covers token cs (munch c (cs ++ rest)) := by
  generalize hword : c :: cs = word at h
  cases h with
  | fixed h =>
    cases hword
    exact covers_fixed h rest
  | @comment cs hcs =>
    cases hword
    have hrun : ∀ d ∈ '/' :: cs, decide (d ≠ '\n') = true := fun d hd => by
      obtain rfl | hd := List.mem_cons.1 hd
      · decide
      · exact decide_eq_true fun he => hcs (he ▸ hd)
    exact ⟨.comment, _, rfl, takeWhile_run hrun rest, fun _ => .inl rfl⟩
  | directive hne hcs =>
    cases hword
    have hrun := takeWhile_run hcs rest
    have hsome : (cs ++ rest).takeWhile Char.isAlpha ≠ [] := fun hnil =>
      hne (List.append_eq_nil_iff.1 (hrun.symm.trans hnil)).1
    have hm : munch '#' (cs ++ rest) = spanning (.token .directive) Char.isAlpha (cs ++ rest) :=
      if_neg hsome
    rw [hm]
    exact ⟨.directive, _, rfl, hrun, fun _ => .inl rfl⟩
  | int hne hcs =>
    cases hword
    obtain ⟨hc, hcs⟩ := List.forall_mem_cons.1 hcs
    rw [munch_digits hc]
    exact ⟨.int, _, rfl, takeWhile_run hcs rest, fun _ => .inl rfl⟩
  | @str body hbody =>
    cases hword
    have hm : munch '"' (body ++ ['"'] ++ rest) = (.token .str, body ++ ['"'], rest) := by
      rw [List.append_assoc]
      exact takeQuote_body hbody rest
    rw [hm]
    exact ⟨.str, [], rfl, (List.append_nil _).symm, fun _ => .inl rfl⟩
  | ident hc hcs =>
    cases hword
    exact covers_word hc hcs rest (.inl rfl)

/-- A token with the shape of the word that is taken, or a stray piece. -/
def Shaped (c : Char) (m : Piece × List Char × List Char) : Prop :=
  (∃ token, m.1 = .token token ∧ token.Matches (c :: m.2.1)) ∨
    m.1 = .stray ∧ IsStray (c :: m.2.1)

theorem shaped_follow {c next : Char} {long short : Token}
    (hlong : long.spelling? = some [c, next]) (hshort : short.spelling? = some [c])
    (cs : List Char) : Shaped c (follow next (.token long) (.token short) cs) := by
  obtain ⟨hpiece, htaken⟩ | ⟨hpiece, htaken⟩ := follow_cases next (.token long) (.token short) cs
  · exact .inl ⟨long, hpiece, htaken ▸ .fixed hlong⟩
  · exact .inl ⟨short, hpiece, htaken ▸ .fixed hshort⟩

theorem shaped_pair {c : Char} {token : Token} (hgap : isGap c = false) (hc : c ≠ '"')
    (ht : token.spelling? = some [c, c]) (cs : List Char) :
    Shaped c (follow c (.token token) .stray cs) := by
  obtain ⟨hpiece, htaken⟩ | ⟨hpiece, htaken⟩ := follow_cases c (.token token) .stray cs
  · exact .inl ⟨token, hpiece, htaken ▸ .fixed ht⟩
  · exact .inr ⟨hpiece, htaken ▸ .single hgap hc⟩

theorem shaped_slash (cs : List Char) : Shaped '/' (takeSlash cs) := by
  cases cs with
  | nil => exact .inl ⟨.slash, rfl, .fixed rfl⟩
  | cons d cs =>
    unfold takeSlash
    split
    next hd =>
      cases hd
      exact .inl ⟨.comment, rfl, .comment fun hm => by simpa using List.mem_takeWhile_imp hm⟩
    next => exact .inl ⟨.slash, rfl, .fixed rfl⟩

theorem shaped_hash (cs : List Char) : Shaped '#' (takeHash cs) := by
  unfold takeHash
  split
  next => exact .inr ⟨rfl, .single rfl (by decide)⟩
  next hne => exact .inl ⟨.directive, rfl, .directive hne fun d hd => List.mem_takeWhile_imp hd⟩

theorem shaped_quote (cs : List Char) : Shaped '"' (takeQuote cs) := by
  obtain ⟨body, hbody, hrun⟩ := isBody_quotedRun [] cs
  rw [List.reverse_nil, List.nil_append] at hrun
  unfold takeQuote
  split
  next taken rest heq =>
    rw [heq] at hrun
    cases hrun
    exact .inl ⟨.str, rfl, .str hbody⟩
  next taken rest _ heq =>
    rw [heq] at hrun
    cases hrun
    exact .inr ⟨rfl, .quote hbody⟩

theorem shaped_munch {c : Char} (hc : isGap c = false) (cs : List Char) :
    Shaped c (munch c cs) := by
  unfold munch
  rw [if_neg (Bool.eq_false_iff.1 hc)]
  split
  next hd =>
    refine .inl ⟨.int, rfl, .int (List.cons_ne_nil _ _) (List.forall_mem_cons.2 ⟨hd, ?_⟩)⟩
    exact fun d hd => List.mem_takeWhile_imp hd
  split
  next hw => exact .inl ⟨_, rfl, Token.matches_ofWord hw fun d hd => List.mem_takeWhile_imp hd⟩
  split
  · exact shaped_slash cs
  · exact shaped_hash cs
  · exact shaped_quote cs
  all_goals first
    | exact .inl ⟨_, rfl, .fixed rfl⟩
    | exact shaped_follow rfl rfl cs
    | exact shaped_pair rfl (by decide) rfl cs
    | exact .inr ⟨rfl, .single hc ‹_›⟩

theorem covers_prefix {token : Token} {word : List Char} {c : Char} {cs : List Char}
    (h : token.Matches word) (hpre : word <+: c :: cs) :
    ∃ tail, word = c :: tail ∧ Covers token tail (munch c cs) := by
  obtain ⟨d, tail, rfl⟩ := List.exists_cons_of_ne_nil h.ne_nil
  obtain ⟨rest, hrest⟩ := hpre
  obtain ⟨rfl, rfl⟩ := List.cons.inj hrest
  exact ⟨tail, rfl, munch_of_matches h rest⟩

theorem word_munch (c : Char) (cs : List Char) :
    c :: (munch c cs).2.1 ++ (munch c cs).2.2 = c :: cs :=
  congrArg (c :: ·) (munch_append c cs)

theorem longest_token {c : Char} {cs : List Char} {token : Token}
    (hpiece : (munch c cs).1 = .token token) (hmatch : token.Matches (c :: (munch c cs).2.1)) :
    token.Longest (c :: (munch c cs).2.1) (munch c cs).2.2 := by
  constructor
  · exact hmatch
  · intro other longer hother hpre
    rw [word_munch] at hpre
    obtain ⟨tail, rfl, taken, more, -, htaken, -⟩ := covers_prefix hother hpre
    rw [htaken, List.length_cons, List.length_cons, List.length_append]
    omega
  · intro other hother
    have hpre : c :: (munch c cs).2.1 <+: c :: cs := ⟨_, word_munch c cs⟩
    obtain ⟨tail, htail, taken, more, hother, htaken, hnone⟩ := covers_prefix hother hpre
    obtain rfl := (List.cons.inj htail).2
    rw [hpiece] at hother
    cases hother
    exact hnone (List.append_cancel_left (htaken.symm.trans (List.append_nil _).symm))

theorem longest_stray {c : Char} {cs : List Char} (hpiece : (munch c cs).1 = .stray)
    (hstray : IsStray (c :: (munch c cs).2.1)) :
    LongestStray (c :: (munch c cs).2.1) (munch c cs).2.2 := by
  constructor
  · exact hstray
  · intro token other hother hpre
    rw [word_munch] at hpre
    obtain ⟨tail, -, taken, more, htoken, -⟩ := covers_prefix hother hpre
    cases hpiece.symm.trans htoken
  · intro longer hlonger hpre
    rw [word_munch] at hpre
    cases hlonger with
    | single => exact Nat.succ_le_succ (Nat.zero_le _)
    | quote hbody =>
      obtain ⟨rfl, hbodies⟩ := List.cons_prefix_cons.1 hpre
      have htaken : (munch '"' cs).2.1 = (quotedRun [] cs).1 := taken_of_stray hpiece
      rw [htaken]
      exact Nat.succ_le_succ (length_body_le hbody hbodies)

/-- A piece that is no blank is the longest token, or a stray piece where no token stands. -/
theorem longest_munch {c : Char} (hc : isGap c = false) (cs : List Char) :
    (∃ token, (munch c cs).1 = .token token ∧
      token.Longest (c :: (munch c cs).2.1) (munch c cs).2.2) ∨
    (munch c cs).1 = .stray ∧ LongestStray (c :: (munch c cs).2.1) (munch c cs).2.2 := by
  obtain ⟨token, hpiece, hmatch⟩ | ⟨hpiece, hstray⟩ := shaped_munch hc cs
  · exact .inl ⟨token, hpiece, longest_token hpiece hmatch⟩
  · exact .inr ⟨hpiece, longest_stray hpiece hstray⟩

end Lexer
end ScriptSession
