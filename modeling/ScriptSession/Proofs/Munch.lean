import Mathlib.Data.List.TakeWhile
import ScriptSession.Token.Lexer
/-!
One step of the lexer and what comes after it. What is taken depends on what follows it only through
one or two characters, so it stays the same where the text is cut, or goes on with a new line.
-/
namespace ScriptSession

/-- What stands between the quotes of a string: characters that are no quotes, backslashes or ends
of lines, and backslashes with any character after them but a line feed. -/
inductive IsBody : List Char → Prop
  | nil : IsBody []
  | plain {c : Char} {cs : List Char} :
      ¬ (c = '"' ∨ c = '\\' ∨ c = '\n' ∨ c = '\r') → IsBody cs → IsBody (c :: cs)
  | escape {c : Char} {cs : List Char} : c ≠ '\n' → IsBody cs → IsBody ('\\' :: c :: cs)

namespace IsBody

theorem append {body more : List Char} (h : IsBody body) (hmore : IsBody more) :
    IsBody (body ++ more) := by
  induction h with
  | nil => exact hmore
  | plain hc _ ih => exact .plain hc ih
  | escape hc _ ih => exact .escape hc ih

theorem of_plain {cs : List Char}
    (h : ∀ c ∈ cs, ¬ (c = '"' ∨ c = '\\' ∨ c = '\n' ∨ c = '\r')) : IsBody cs := by
  induction cs with
  | nil => exact .nil
  | cons c cs ih =>
    obtain ⟨hc, hcs⟩ := List.forall_mem_cons.1 h
    exact .plain hc (ih hcs)

theorem flatMap {f : Char → List Char} (h : ∀ c, IsBody (f c)) (cs : List Char) :
    IsBody (cs.flatMap f) := by
  induction cs with
  | nil => exact .nil
  | cons c cs ih =>
    rw [List.flatMap_cons]
    exact (h c).append ih

end IsBody

namespace Lexer

theorem isAlpha_eq (c : Char) :
    c.isAlpha = (decide (c.val ≥ 'A'.val ∧ c.val ≤ 'Z'.val) ||
      (decide (c.val ≥ 'a'.val) && decide (c.val ≤ 'z'.val))) :=
  rfl

/-- Whether no piece that ends before `rest` would go on into `rest'`: nothing or a line feed stands
there, or what stood before. A backslash is followed by nothing, a line feed, or what followed. -/
def Meets (rest rest' : List Char) : Prop :=
  ∀ c ∈ rest'.head?, c = '\n' ∨
    c ∈ rest.head? ∧ ∀ d ∈ rest'.tail.head?, d = '\n' ∨ d ∈ rest.tail.head?

theorem meets_front {rest rest' : List Char} (h : rest' <+: rest) : Meets rest rest' := by
  obtain ⟨more, rfl⟩ := h
  intro c hc
  cases rest' with
  | nil => cases hc
  | cons a as =>
    refine .inr ⟨hc, fun d hd => .inr ?_⟩
    cases as with
    | nil => cases hd
    | cons b bs => exact hd

theorem meets_newline (rest more : List Char) : Meets rest (rest ++ '\n' :: more) := by
  intro c hc
  cases rest with
  | nil => cases hc; exact .inl rfl
  | cons a as =>
    refine .inr ⟨hc, fun d hd => ?_⟩
    cases as with
    | nil => cases hd; exact .inl rfl
    | cons b bs => exact .inr hd

theorem run_ends {p : Char → Bool} {cs rest : List Char} (hcs : ∀ d ∈ cs, p d = true)
    (hrest : ∀ d ∈ rest.head?, p d = false) :
    (cs ++ rest).takeWhile p = cs ∧ (cs ++ rest).dropWhile p = rest := by
  rw [List.takeWhile_append_of_pos hcs, List.dropWhile_append_of_pos hcs]
  cases rest with
  | nil => exact ⟨List.append_nil cs, rfl⟩
  | cons d rest =>
    have hd := hrest d rfl
    rw [List.takeWhile_cons_of_neg (by simp [hd]), List.dropWhile_cons_of_neg (by simp [hd])]
    exact ⟨List.append_nil cs, rfl⟩

theorem takeWhile_meets {p : Char → Bool} (hp : p '\n' = false) {cs rest' : List Char}
    (h : Meets (cs.dropWhile p) rest') :
    (cs.takeWhile p ++ rest').takeWhile p = cs.takeWhile p ∧
      (cs.takeWhile p ++ rest').dropWhile p = rest' := by
  apply run_ends
  · exact fun c hc => List.mem_takeWhile_imp hc
  · intro c hc
    obtain rfl | ⟨hd, -⟩ := h c hc
    · exact hp
    · have := List.head?_dropWhile_not p cs
      rw [Option.mem_def.1 hd] at this
      exact Bool.eq_false_iff.2 (by simpa using this)

def StopsQuote (cs : List Char) : Prop :=
  ∀ c ∈ cs.head?, c = '"' ∨ c = '\n' ∨ c = '\r' ∨ c = '\\' ∧ ∀ d ∈ cs.tail.head?, d = '\n'

theorem quotedRun_of_stops {cs : List Char} (h : StopsQuote cs) (taken : List Char) :
    quotedRun taken cs = (taken.reverse, cs) := by
  cases cs with
  | nil => rfl
  | cons c cs =>
    obtain rfl | rfl | rfl | ⟨rfl, hd⟩ := h c rfl
    · simp [quotedRun]
    · simp [quotedRun]
    · simp [quotedRun]
    · cases cs with
      | nil => simp [quotedRun]
      | cons d cs =>
        cases hd d rfl
        simp [quotedRun]

theorem StopsQuote.meets {rest rest' : List Char} (h : StopsQuote rest) (hm : Meets rest rest') :
    StopsQuote rest' := by
  intro c hc
  obtain hl | ⟨hc, hd⟩ := hm c hc
  · exact .inr (.inl hl)
  · obtain hq | hl | hr | ⟨hb, ht⟩ := h c hc
    · exact .inl hq
    · exact .inr (.inl hl)
    · exact .inr (.inr (.inl hr))
    · exact .inr (.inr (.inr ⟨hb, fun d hd' => (hd d hd').elim id (ht d)⟩))

theorem stopsQuote_quotedRun (taken cs : List Char) : StopsQuote (quotedRun taken cs).2 := by
  fun_induction quotedRun taken cs with
  | case1 taken cs =>
    intro c hc
    cases hc
    exact .inr (.inr (.inr ⟨rfl, fun d hd => by cases hd; rfl⟩))
  | case2 _ _ _ _ ih | case4 _ _ _ _ _ ih => exact ih
  | case3 taken c cs hno hc =>
    intro d hd
    cases hd
    obtain hq | hb | hl | hr := hc
    · exact .inl hq
    · refine .inr (.inr (.inr ⟨hb, fun d hd => ?_⟩))
      cases cs with
      | nil => cases hd
      | cons d' cs => exact (hno d' cs hb rfl).elim
    · exact .inr (.inl hl)
    · exact .inr (.inr (.inl hr))
  | case5 =>
    intro c hc
    cases hc

theorem isBody_quotedRun (taken cs : List Char) :
    ∃ body, IsBody body ∧ (quotedRun taken cs).1 = taken.reverse ++ body := by
  fun_induction quotedRun taken cs with
  | case1 taken | case3 taken | case5 taken => exact ⟨[], .nil, (List.append_nil _).symm⟩
  | case2 taken c cs hc ih =>
    obtain ⟨body, hbody, hrun⟩ := ih
    refine ⟨'\\' :: c :: body, .escape hc hbody, hrun.trans ?_⟩
    simp only [List.reverse_cons, List.append_assoc, List.cons_append, List.nil_append]
  | case4 taken c cs _ hc ih =>
    obtain ⟨body, hbody, hrun⟩ := ih
    refine ⟨c :: body, .plain hc hbody, hrun.trans ?_⟩
    rw [List.reverse_cons, List.append_assoc, List.singleton_append]

/-- A string body is passed over whatever follows it. -/
theorem quotedRun_body {body : List Char} (h : IsBody body) (taken rest : List Char) :
    quotedRun taken (body ++ rest) = quotedRun (body.reverse ++ taken) rest := by
  induction h generalizing taken with
  | nil => rfl
  | @plain c cs hc _ ih =>
    have hstep : quotedRun taken (c :: (cs ++ rest)) = quotedRun (c :: taken) (cs ++ rest) := by
      rw [quotedRun, if_neg hc]
      intro d ds hcb _
      exact hc (.inr (.inl hcb))
    rw [List.cons_append, hstep, ih, List.reverse_cons, List.append_assoc, List.singleton_append]
  | @escape c cs hc _ ih =>
    rw [List.cons_append, List.cons_append, quotedRun, if_neg hc, ih]
    simp only [List.reverse_cons, List.append_assoc, List.cons_append, List.nil_append]

theorem quotedRun_before {body rest : List Char} (h : IsBody body) (hrest : StopsQuote rest) :
    quotedRun [] (body ++ rest) = (body, rest) := by
  rw [quotedRun_body h, quotedRun_of_stops hrest, List.append_nil, List.reverse_reverse]

def takeWord (c : Char) (cs : List Char) : Piece × List Char × List Char :=
  (.token (.ofWord (c :: cs.takeWhile isWordPart)), cs.takeWhile isWordPart,
    cs.dropWhile isWordPart)

/-- What starts with a slash: a comment or the operator. -/
def takeSlash (cs : List Char) : Piece × List Char × List Char :=
  if cs.head? = some '/' then spanning (.token .comment) (· ≠ '\n') cs else (.token .slash, [], cs)

/-- What starts with a hash sign: a directive marker where letters follow. -/
def takeHash (cs : List Char) : Piece × List Char × List Char :=
  if cs.takeWhile Char.isAlpha = [] then (.stray, [], cs)
  else spanning (.token .directive) Char.isAlpha cs

def takeQuote (cs : List Char) : Piece × List Char × List Char :=
  match quotedRun [] cs with
  | (body, '"' :: rest) => (.token .str, body ++ ['"'], rest)
  | (body, rest) => (.stray, body, rest)

/-- Pieces whose extent no class of characters gives: tokens but comments, and stray pieces. -/
def Plain (piece : Piece) : Prop :=
  piece ≠ .blank ∧ piece ≠ .token .comment

/-- The ways in which pieces that are no blanks are taken, by their first character. -/
inductive Takes : Char → (List Char → Piece × List Char × List Char) → Prop
  | digits {c : Char} : Takes c (spanning (.token .int) Char.isDigit)
  | word {c : Char} : Takes c (takeWord c)
  | slash : Takes '/' takeSlash
  | hash : Takes '#' takeHash
  | quote : Takes '"' takeQuote
  | follow {c : Char} (next : Char) (long short : Piece) : next = '=' ∨ next = '&' ∨ next = '|' →
    Plain long → Plain short → Takes c (follow next long short)
  | single {c : Char} (piece : Piece) : Plain piece → Takes c fun cs => (piece, [], cs)

theorem takes_munch {c : Char} (hc : isGap c = false) : Takes c (munch c) := by
  have hgap : ¬ isGap c = true := Bool.eq_false_iff.1 hc
  by_cases hd : c.isDigit
  · have he : munch c = spanning (.token .int) Char.isDigit := by
      funext cs
      unfold munch
      rw [if_neg hgap, if_pos hd]
    rw [he]
    exact .digits
  by_cases hw : isWordStart c
  · have he : munch c = takeWord c := by
      funext cs
      unfold munch
      rw [if_neg hgap, if_neg hd, if_pos hw, takeWord]
    rw [he]
    exact .word
  by_cases h₁ : c = '/'
  · subst h₁; exact .slash
  by_cases h₂ : c = '#'
  · subst h₂; exact .hash
  by_cases h₃ : c = '"'
  · subst h₃; exact .quote
  by_cases h₄ : c = '='
  · subst h₄; exact .follow '=' _ _ (.inl rfl) ⟨nofun, nofun⟩ ⟨nofun, nofun⟩
  by_cases h₅ : c = '!'
  · subst h₅; exact .follow '=' _ _ (.inl rfl) ⟨nofun, nofun⟩ ⟨nofun, nofun⟩
  by_cases h₆ : c = '<'
  · subst h₆; exact .follow '=' _ _ (.inl rfl) ⟨nofun, nofun⟩ ⟨nofun, nofun⟩
  by_cases h₇ : c = '>'
  · subst h₇; exact .follow '=' _ _ (.inl rfl) ⟨nofun, nofun⟩ ⟨nofun, nofun⟩
  by_cases h₈ : c = '&'
  · subst h₈; exact .follow '&' _ _ (.inr (.inl rfl)) ⟨nofun, nofun⟩ ⟨nofun, nofun⟩
  by_cases h₉ : c = '|'
  · subst h₉; exact .follow '|' _ _ (.inr (.inr rfl)) ⟨nofun, nofun⟩ ⟨nofun, nofun⟩
  have he : munch c = fun cs => ((munch c []).1, [], cs) := by
    funext cs
    unfold munch
    rw [if_neg hgap, if_neg hd, if_neg hw, if_neg hgap, if_neg hd, if_neg hw]
    split <;> first | contradiction | rfl
  have hp : Plain (munch c []).1 := by
    unfold munch
    rw [if_neg hgap, if_neg hd, if_neg hw]
    split <;> first | contradiction | exact ⟨nofun, nofun⟩
  rw [he]
  exact .single _ hp

theorem Takes.piece_ne_blank {c : Char} {take : List Char → Piece × List Char × List Char}
    (h : Takes c take) (cs : List Char) : (take cs).1 ≠ .blank := by
  cases h with
  | digits | word => exact nofun
  | slash => unfold takeSlash; split <;> exact nofun
  | hash => unfold takeHash; split <;> exact nofun
  | quote => unfold takeQuote; split <;> exact nofun
  | follow next long short _ hl hs =>
    unfold Lexer.follow
    split
    · exact hs.1
    · split
      · exact hl.1
      · exact hs.1
  | single piece h => exact h.1

theorem Takes.comment {c : Char} {take : List Char → Piece × List Char × List Char}
    (h : Takes c take) {cs : List Char} (hp : (take cs).1 = .token .comment) :
    (take cs).2.2 = cs.dropWhile (· ≠ '\n') := by
  cases h with
  | digits => cases hp
  | word =>
    have hne (word : List Char) : Token.ofWord word ≠ .comment := by
      unfold Token.ofWord
      repeat' split
      all_goals nofun
    exact absurd (Piece.token.inj hp) (hne _)
  | slash =>
    unfold takeSlash at hp ⊢
    split at hp
    next hs => rw [if_pos hs, spanning]
    next => cases hp
  | hash =>
    unfold takeHash at hp
    split at hp <;> cases hp
  | quote =>
    unfold takeQuote at hp
    split at hp <;> cases hp
  | follow next long short _ hl hs =>
    unfold Lexer.follow at hp
    split at hp
    · exact absurd hp hs.2
    · split at hp
      · exact absurd hp hl.2
      · exact absurd hp hs.2
  | single piece h => exact absurd hp h.2

theorem follow_meets {next : Char} (hn : next ≠ '\n') (long short : Piece) {cs rest : List Char}
    (h : Meets (follow next long short cs).2.2 rest) :
    follow next long short ((follow next long short cs).2.1 ++ rest) =
      ((follow next long short cs).1, (follow next long short cs).2.1, rest) := by
  have hshort (hr : ∀ d ∈ rest.head?, d ≠ next) :
      follow next long short rest = (short, [], rest) := by
    cases rest with
    | nil => rfl
    | cons d rest => rw [follow, if_neg (hr d rfl)]
  cases cs with
  | nil =>
    refine hshort fun d hd => ?_
    obtain rfl | ⟨hd, -⟩ := h d hd
    · exact hn.symm
    · cases hd
  | cons d cs =>
    rw [follow] at h ⊢
    split
    next hd => rw [hd, List.singleton_append, follow, if_pos rfl]
    next hd =>
      rw [if_neg hd] at h
      refine hshort fun d' hd' => ?_
      obtain rfl | ⟨he, -⟩ := h d' hd'
      · exact hn.symm
      · cases he
        exact hd

theorem takeSlash_meets {cs rest : List Char} (h : Meets (takeSlash cs).2.2 rest) :
    takeSlash ((takeSlash cs).2.1 ++ rest) = ((takeSlash cs).1, (takeSlash cs).2.1, rest) := by
  cases cs with
  | nil =>
    have hr : rest.head? ≠ some '/' := fun hs => by
      obtain hl | ⟨hn, -⟩ := h _ hs
      · cases hl
      · cases hn
    simp only [takeSlash, List.head?_nil, reduceCtorEq, if_false, List.nil_append, hr]
  | cons c cs =>
    by_cases hs : c = '/'
    · subst hs
      simp only [takeSlash, List.head?_cons, if_true, spanning] at h ⊢
      obtain ⟨ht, hd⟩ := takeWhile_meets (by decide) h
      rw [List.takeWhile_cons_of_pos (by decide)] at ht hd ⊢
      rw [List.cons_append] at ht hd ⊢
      rw [List.head?_cons, if_pos rfl, ht, hd]
    · have hcs : (c :: cs).head? ≠ some '/' := fun he => hs (Option.some.inj he)
      simp only [takeSlash, if_neg hcs, List.nil_append] at h ⊢
      have hr : rest.head? ≠ some '/' := fun hs' => by
        obtain hl | ⟨hn, -⟩ := h _ hs'
        · cases hl
        · exact hcs hn
      rw [if_neg hr]

theorem takeHash_meets {cs rest : List Char} (h : Meets (takeHash cs).2.2 rest) :
    takeHash ((takeHash cs).2.1 ++ rest) = ((takeHash cs).1, (takeHash cs).2.1, rest) := by
  by_cases hs : cs.takeWhile Char.isAlpha = []
  · have hdrop : cs.dropWhile Char.isAlpha = cs := by
      have := List.takeWhile_append_dropWhile (p := Char.isAlpha) (l := cs)
      rwa [hs, List.nil_append] at this
    simp only [takeHash, if_pos hs, List.nil_append] at h ⊢
    obtain ⟨ht, -⟩ := takeWhile_meets (p := Char.isAlpha) (by decide) (hdrop.symm ▸ h)
    rw [hs, List.nil_append] at ht
    rw [if_pos ht]
  · simp only [takeHash, if_neg hs, spanning] at h ⊢
    obtain ⟨ht, hd⟩ := takeWhile_meets (by decide) h
    rw [ht, hd, if_neg hs]

theorem takeQuote_closed {cs body rest : List Char} (h : quotedRun [] cs = (body, '"' :: rest)) :
    takeQuote cs = (.token .str, body ++ ['"'], rest) := by
  simp only [takeQuote, h]

theorem takeQuote_open {cs body rest : List Char} (h : quotedRun [] cs = (body, rest))
    (hr : rest.head? ≠ some '"') : takeQuote cs = (.stray, body, rest) := by
  unfold takeQuote
  rw [h]
  split
  next he =>
    cases he
    exact absurd rfl hr
  next he =>
    cases he
    rfl

theorem takeQuote_body {body : List Char} (h : IsBody body) (rest : List Char) :
    takeQuote (body ++ '"' :: rest) = (.token .str, body ++ ['"'], rest) := by
  apply takeQuote_closed
  exact quotedRun_before h fun c hc => by cases hc; exact .inl rfl

theorem takeQuote_meets {cs rest : List Char} (h : Meets (takeQuote cs).2.2 rest) :
    takeQuote ((takeQuote cs).2.1 ++ rest) = ((takeQuote cs).1, (takeQuote cs).2.1, rest) := by
  have hstop := stopsQuote_quotedRun [] cs
  obtain ⟨body, hbody, hrun⟩ := isBody_quotedRun [] cs
  obtain ⟨b, r, hbr⟩ : ∃ b r, quotedRun [] cs = (b, r) := ⟨_, _, rfl⟩
  rw [hbr] at hstop hrun
  obtain rfl : b = body := hrun
  by_cases hr : r.head? = some '"'
  · obtain ⟨r, rfl⟩ := List.head?_eq_some_iff.1 hr
    rw [takeQuote_closed hbr, List.append_assoc]
    exact takeQuote_body hbody rest
  · rw [takeQuote_open hbr hr] at h ⊢
    refine takeQuote_open (quotedRun_before hbody (hstop.meets h)) fun hq => ?_
    obtain hl | ⟨hn, -⟩ := h _ hq
    · cases hl
    · exact hr hn

theorem Takes.meets {c : Char} {take : List Char → Piece × List Char × List Char}
    (ht : Takes c take) {cs rest : List Char} (h : Meets (take cs).2.2 rest) :
    take ((take cs).2.1 ++ rest) = ((take cs).1, (take cs).2.1, rest) := by
  cases ht with
  | digits =>
    obtain ⟨ht, hd⟩ := takeWhile_meets (by decide) h
    simp only [spanning, ht, hd]
  | word =>
    obtain ⟨ht, hd⟩ := takeWhile_meets (by decide) h
    simp only [takeWord, ht, hd]
  | slash => exact takeSlash_meets h
  | hash => exact takeHash_meets h
  | quote => exact takeQuote_meets h
  | follow next long short hn _ _ =>
    exact follow_meets (by rcases hn with rfl | rfl | rfl <;> decide) long short h
  | single => rfl

/-- A piece that is no blank is taken alike before whatever it meets. -/
theorem munch_meets {c : Char} (hc : isGap c = false) {cs rest : List Char}
    (h : Meets (munch c cs).2.2 rest) :
    munch c ((munch c cs).2.1 ++ rest) = ((munch c cs).1, (munch c cs).2.1, rest) :=
  (takes_munch hc).meets h

theorem munch_newline {c : Char} (hc : isGap c = false) (cs more : List Char) :
    munch c (cs ++ '\n' :: more) =
      ((munch c cs).1, (munch c cs).2.1, (munch c cs).2.2 ++ '\n' :: more) := by
  have h := munch_meets hc (meets_newline (munch c cs).2.2 more)
  rwa [← List.append_assoc, munch_append] at h

end Lexer
end ScriptSession
