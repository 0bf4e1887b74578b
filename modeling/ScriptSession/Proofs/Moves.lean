import ScriptSession.Proofs.Cursor
import ScriptSession.Proofs.Faithful
import ScriptSession.Proofs.Place

namespace ScriptSession

namespace Text

/-- Exactly the boundaries of a text are places to cut at. -/
theorem cutAt?_eq_some_iff {offset : Nat} {cs front back : List Char} :
    cutAt? offset cs = some (front, back) ↔ cs = front ++ back ∧ byteLength front = offset := by
  induction offset, cs using cutAt?.induct generalizing front with
  | case1 cs =>
    rw [cutAt?, Option.some.injEq, Prod.mk.injEq]
    constructor
    · rintro ⟨rfl, rfl⟩
      exact ⟨rfl, rfl⟩
    · rintro ⟨rfl, hlength⟩
      cases front with
      | nil => exact ⟨rfl, rfl⟩
      | cons c front =>
        have := c.utf8Size_pos
        rw [byteLength_cons] at hlength
        omega
  | case2 offset =>
    rw [cutAt?]
    refine ⟨nofun, fun ⟨hsplit, hlength⟩ => ?_⟩
    rw [(List.append_eq_nil_iff.1 hsplit.symm).1] at hlength
    cases hlength
  | case3 offset c cs hfits ih =>
    rw [cutAt?, if_pos hfits, Option.map_eq_some_iff]
    constructor
    · rintro ⟨⟨rest, _⟩, hcut, he⟩
      cases he
      obtain ⟨rfl, hlength⟩ := ih.1 hcut
      refine ⟨rfl, ?_⟩
      rw [byteLength_cons]
      omega
    · rintro ⟨hsplit, hlength⟩
      cases front with
      | nil => cases hlength
      | cons d front =>
        obtain ⟨rfl, rfl⟩ := List.cons.inj hsplit
        rw [byteLength_cons] at hlength
        exact ⟨(front, back), ih.2 ⟨rfl, by omega⟩, rfl⟩
  | case4 offset c cs hlarge =>
    rw [cutAt?, if_neg hlarge]
    refine ⟨nofun, fun ⟨hsplit, hlength⟩ => ?_⟩
    cases front with
    | nil => cases hlength
    | cons d front =>
      obtain ⟨rfl, rfl⟩ := List.cons.inj hsplit
      rw [byteLength_cons] at hlength
      omega

theorem Slice.isBoundary {cs : List Char} {span : Span} {word rest : List Char}
    (h : Slice cs span word rest) : IsBoundary cs span.start := by
  obtain ⟨front, rfl, rfl⟩ := h
  exact isBoundary_byteLength front _

theorem slice?_of_slice {cs : List Char} {span : Span} {word rest : List Char}
    (h : Slice cs span word rest) : slice? cs span = some word := by
  obtain ⟨front, rfl, rfl⟩ := h
  have hstop : cutAt? (byteLength front + byteLength word) (front ++ (word ++ rest)) =
      some (front ++ word, rest) :=
    cutAt?_eq_some_iff.2 ⟨(List.append_assoc ..).symm, byteLength_append front word⟩
  have hstart : cutAt? (byteLength front) (front ++ word) = some (front, word) :=
    cutAt?_eq_some_iff.2 ⟨rfl, rfl⟩
  simp only [slice?, hstop, hstart, Option.bind_eq_bind, Option.bind_some, Option.pure_def]

end Text

namespace Position

theorem cut?_of_isBoundary {cs : List Char} {offset : Nat} (h : Text.IsBoundary cs offset) :
    cut? cs offset = some (ofOffset cs offset) := by
  have hmin := Nat.min_eq_left h.le_byteLength
  obtain ⟨front, back, rfl, rfl⟩ := h
  have hcut : Text.cutAt? (Text.byteLength front) (front ++ back) = some (front, back) :=
    Text.cutAt?_eq_some_iff.2 ⟨rfl, rfl⟩
  obtain ⟨before, row, rfl, hbefore, hrow⟩ := Text.exists_lastRow front
  have hcount : (before ++ row).count '\n' = before.count '\n' := by
    rw [List.count_append, List.count_eq_zero.2 hrow, Nat.add_zero]
  have hplace := ofOffset_row hbefore hrow back
  rw [← List.append_assoc, ← hcount] at hplace
  simp only [cut?, hmin, hcut, Option.bind_eq_bind, Option.bind_some, Option.pure_def, hplace]
  obtain rfl | ⟨above, rfl⟩ := hbefore
  · rw [List.nil_append, Text.cutLast_eq_none hrow]
  · have hrest : Text.cutAt? (Text.byteLength above + 1) (above ++ ['\n'] ++ row) =
        some (above ++ ['\n'], row) :=
      Text.cutAt?_eq_some_iff.2 ⟨rfl, Text.byteLength_append above ['\n']⟩
    have hlast := Text.cutLast_append above hrow
    rw [← List.singleton_append, ← List.append_assoc] at hlast
    simp only [hlast, hrest, Option.bind_some]

end Position

theorem stopOf_eq (stop : Nat) (ts : List Lexeme) :
    stopOf stop ts = (ts.getLast?.map (·.span.stop)).getD stop := by
  induction ts using List.reverseRecOn with
  | nil => rfl
  | append_singleton ts t _ =>
    rw [stopOf_append, List.getLast?_concat]
    rfl

theorem ahead_nil_ne (token : Token) : ahead? [] ≠ some token :=
  nofun

namespace Cursor

variable {α β γ δ : Type} {pos pos' : Nat}

section

variable {tape : Tape}

theorem at_bind {m : Step α} {k : α → Step β} {a : α} (h : m.at tape pos = .ok (a, pos')) :
    (m >>= k).at tape pos = (k a).at tape pos' := by
  change Except.bind (m.at tape pos) _ = _
  rw [h]
  rfl

theorem at_bind_error {m : Step α} {k : α → Step β} {stop : Stop}
    (h : m.at tape pos = .error stop) : (m >>= k).at tape pos = .error stop := by
  change Except.bind (m.at tape pos) _ = _
  rw [h]
  rfl

theorem at_pure (a : α) : (pure a : Step α).at tape pos = .ok (a, pos) := rfl

theorem at_get : (get : Step Nat).at tape pos = .ok (pos, pos) := rfl

theorem at_read : (read : Step Tape).at tape pos = .ok (tape, pos) := rfl

end

/-- A text with the tokens that are read, each of which is a slice of it. -/
structure Input where
  source : List Char
  tokens : List Lexeme
  sliced : ∀ t ∈ tokens, ∃ rest, Text.Slice source t.span t.text.toList rest

namespace Input

variable {i : Input} {t : Lexeme} {ts : List Lexeme}

def tape (i : Input) : Tape :=
  ⟨i.source, i.tokens.map fun t => (t.token, t.span)⟩

def eof (i : Input) : Nat :=
  Text.byteLength i.source

def Left (i : Input) (pos : Nat) (ts : List Lexeme) : Prop :=
  ∃ done, i.tokens = done ++ ts ∧ done.length = pos

/-- The span that stands for what is at the front of some tokens: at the end it is empty. -/
def spanOf (i : Input) : List Lexeme → Span
  | [] => ⟨i.eof, i.eof⟩
  | t :: _ => t.span

theorem Left.skip {taken : List Lexeme} (h : i.Left pos (taken ++ ts)) :
    i.Left (pos + taken.length) ts := by
  obtain ⟨done, htokens, rfl⟩ := h
  exact ⟨done ++ taken, by rw [htokens, List.append_assoc], List.length_append⟩

theorem Left.tail (h : i.Left pos (t :: ts)) : i.Left (pos + 1) ts := by
  rw [← List.singleton_append] at h
  exact h.skip

theorem Left.lt (h : i.Left pos (t :: ts)) : pos < i.tape.tokens.length := by
  obtain ⟨done, htokens, rfl⟩ := h
  rw [tape, List.length_map, htokens, List.length_append, List.length_cons]
  omega

theorem Left.le (h : i.Left pos ts) : pos ≤ i.tape.tokens.length := by
  obtain ⟨done, htokens, rfl⟩ := h
  rw [tape, List.length_map, htokens, List.length_append]
  exact Nat.le_add_right _ _

theorem Left.mem (h : i.Left pos (t :: ts)) : t ∈ i.tokens := by
  obtain ⟨done, htokens, -⟩ := h
  rw [htokens]
  exact List.mem_append_right _ List.mem_cons_self

theorem Left.getElem? (h : i.Left pos ts) :
    i.tape.tokens[pos]? = ts.head?.map fun t => (t.token, t.span) := by
  obtain ⟨done, htokens, rfl⟩ := h
  rw [tape, List.getElem?_map, htokens, List.getElem?_append_right (Nat.le_refl _), Nat.sub_self,
    List.head?_eq_getElem?]

theorem Left.length (h : i.Left pos ts) : pos + ts.length = i.tokens.length := by
  obtain ⟨done, htokens, rfl⟩ := h
  rw [htokens, List.length_append]

theorem Left.unique (h : i.Left pos ts) (h' : i.Left pos' ts) : pos = pos' := by
  have := h.length
  have := h'.length
  omega

theorem Left.lt_of_shorter {rest : List Lexeme} (h : i.Left pos ts) (h' : i.Left pos' rest)
    (hlt : rest.length < ts.length) : pos < pos' := by
  have := h.length
  have := h'.length
  omega

theorem Left.isBoundary (h : i.Left pos ts) : Text.IsBoundary i.source (i.spanOf ts).start := by
  cases ts with
  | nil => exact ⟨i.source, [], (List.append_nil _).symm, rfl⟩
  | cons t ts =>
    obtain ⟨rest, hslice⟩ := i.sliced t h.mem
    exact hslice.isBoundary

theorem at_here (h : i.Left pos ts) :
    here?.at i.tape pos = .ok (ts.head?.map fun t => (t.token, t.span), pos) := by
  rw [here?, at_bind at_get, at_bind at_read, at_pure, h.getElem?]

theorem at_peek (h : i.Left pos ts) : peek.at i.tape pos = .ok (ahead? ts, pos) := by
  rw [peek, at_bind (at_here h), at_pure, Option.map_map]
  rfl

theorem at_span (h : i.Left pos ts) : span.at i.tape pos = .ok (i.spanOf ts, pos) := by
  rw [span, at_bind (at_here h)]
  cases ts with
  | nil => exact at_bind at_read
  | cons t ts => rfl

theorem at_slice {span : Span} {word : String} {rest : List Char}
    (h : Text.Slice i.source span word.toList rest) :
    (text span).at i.tape pos = .ok (word, pos) := by
  have hword : Text.slice? i.tape.source span = some word.toList := Text.slice?_of_slice h
  rw [text, at_bind at_read, hword]
  dsimp only
  rw [String.ofList_toList, at_pure]

example : (text ⟨1, 2⟩).at ⟨['é'], []⟩ 0 = .error (.slipped .offBoundary) := by decide +kernel

theorem at_text (h : t ∈ i.tokens) : (text t.span).at i.tape pos = .ok (t.text, pos) := by
  obtain ⟨rest, hslice⟩ := i.sliced t h
  exact at_slice hslice

theorem at_advance (h : i.Left pos (t :: ts)) :
    advance.at i.tape pos = .ok ((), pos + 1) := by
  rw [advance, at_bind at_get, at_bind at_read, if_pos h.lt]
  rfl

theorem at_bump (h : i.Left pos (t :: ts)) : bump.at i.tape pos = .ok (t.span, pos + 1) := by
  rw [bump, at_bind (at_span h), at_bind (at_advance h), at_pure, spanOf]

theorem at_eat (h : i.Left pos (t :: ts)) {token : Token} (ht : t.token = token) :
    (eat token).at i.tape pos = .ok (true, pos + 1) := by
  have hahead : ahead? (t :: ts) = some token := congrArg some ht
  rw [eat, at_bind (at_peek h), if_pos hahead, at_bind (at_advance h), at_pure]

theorem at_eat_of_ne (h : i.Left pos ts) {token : Token} (hne : ahead? ts ≠ some token) :
    (eat token).at i.tape pos = .ok (false, pos) := by
  rw [eat, at_bind (at_peek h), if_neg hne, at_pure]

theorem at_progress {start : Nat} (h : start < pos) :
    (progress start).at i.tape pos = .ok ((), pos) := by
  rw [progress, at_bind at_get, if_pos h, at_pure]

theorem at_stopBefore {inner : List Lexeme} (h : i.Left pos (inner ++ t :: ts))
    (h' : i.Left pos' ts) : stopBefore.at i.tape pos' = .ok (t.span.stop, pos') := by
  have hlast := h.skip
  rw [h'.unique hlast.tail, stopBefore, at_bind at_get]
  dsimp only
  rw [at_bind at_read, hlast.getElem?]
  exact at_pure _

example (tape : Tape) : stopBefore.at tape 0 = .error (.slipped .nothingBefore) := rfl

/-- Where the last of the tokens in front of the position stops, given the ones taken last. -/
theorem at_lastStop {taken : List Lexeme} (h : i.Left pos (taken ++ ts)) (h' : i.Left pos' ts)
    {stop : Nat} (hstop : ∀ start, stopOf start taken = stop) (start : Nat) :
    (lastStop start).at i.tape pos' = .ok (stop, pos') := by
  have hskip := h.skip
  obtain ⟨done, htokens, hlength⟩ := h
  have hfront : i.tokens.take pos' = done ++ taken := by
    rw [h'.unique hskip, htokens, ← List.append_assoc, ← hlength, ← List.length_append,
      List.take_left]
  have hlast : ((i.tape.tokens.take pos').getLast?.map (·.2.stop)).getD start = stop := by
    rw [tape, ← List.map_take, List.getLast?_map, Option.map_map, hfront,
      ← hstop (stopOf start done), ← stopOf_append, stopOf_eq]
    rfl
  rw [lastStop, at_bind at_get, at_bind at_read]
  dsimp only
  rw [if_pos h'.le, hlast, at_pure]

theorem at_place {offset : Nat} (h : Text.IsBoundary i.source offset) :
    (place offset).at i.tape pos = .ok (.ofOffset i.source offset, pos) := by
  have hplace : Position.cut? i.tape.source offset = some (.ofOffset i.source offset) :=
    Position.cut?_of_isBoundary h
  rw [place, at_bind at_read, hplace]
  exact at_pure _

/-- What rejects a text for one finding. -/
def rejection (i : Input) (f : Finding) : Stop :=
  .rejected ⟨[f.locate i.source]⟩

theorem at_fail (h : i.Left pos ts) (problem : Problem) :
    (fail problem : Step α).at i.tape pos =
      .error (i.rejection ⟨(i.spanOf ts).start, problem⟩) := by
  rw [fail, at_bind (at_span h), at_bind (at_place h.isBoundary)]
  rfl

theorem at_unexpected (h : i.Left pos ts) (expected : Expected) :
    (unexpected expected : Step α).at i.tape pos =
      .error (i.rejection (Parser.complaint i.eof expected ts)) := by
  rw [unexpected, at_bind (at_peek h)]
  cases ts with
  | nil => exact at_fail h _
  | cons t ts =>
    have htext : (text t.span).at i.tape pos = .ok (t.text, pos) := at_text h.mem
    rw [Parser.complaint]
    split
    next heq => cases heq
    next heq =>
      rw [if_pos (token_of_ahead heq), at_bind (at_span h), spanOf, at_bind htext, at_fail h]
      rfl
    next hne heq =>
      rw [if_neg fun ht => hne (token_of_ahead heq ▸ ht), at_bind (at_span h), spanOf,
        at_bind htext, at_fail h]
      rfl

end Input

end Cursor

end ScriptSession
